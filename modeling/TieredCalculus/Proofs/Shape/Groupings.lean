import TieredCalculus.Proofs.Shape.Bounds
import TieredCalculus.Update

/-! # Broadcasting in stages

Shapes are also broadcast group by group, and then the common shapes of the groups. The result
is the least common expansion of all members. Neither the order nor the stages nor repeated
members have a say in it, nor in whether there is one.
-/

namespace TieredCalculus.Shape

/-! ## Groupings -/

/-- Shapes that are broadcast in stages, each group to one shape. -/
inductive Grouping where
  | shape (s : Shape)
  | group (parts : List Grouping)

namespace Grouping

mutual

/-- The shapes of all stages. -/
def members : Grouping → List Shape
  | .shape s => [s]
  | .group parts => membersOf parts

def membersOf : List Grouping → List Shape
  | [] => []
  | g :: parts => g.members ++ membersOf parts

end

mutual

/-- What the stages return, the innermost first. -/
def common : Grouping → Except TensorError Shape
  | .shape s => .ok s
  | .group parts => do broadcastAll (← commonOf parts)

def commonOf : List Grouping → Except TensorError (List Shape)
  | [] => .ok []
  | g :: parts => do return (← g.common) :: (← commonOf parts)

end

theorem commonOf_cons_eq_ok {g : Grouping} {parts : List Grouping} {cs : List Shape} :
    commonOf (g :: parts) = .ok cs ↔
      ∃ c rest, g.common = .ok c ∧ commonOf parts = .ok rest ∧ cs = c :: rest := by
  rw [commonOf, Update.except_bind_eq_ok]
  constructor
  · intro h
    obtain ⟨c, hc, hrest⟩ := h
    obtain ⟨rest, hparts, hcs⟩ := Update.except_bind_eq_ok.1 hrest
    cases hcs
    exact ⟨c, rest, hc, hparts, rfl⟩
  · intro h
    obtain ⟨c, rest, hc, hparts, rfl⟩ := h
    exact ⟨c, hc, Update.except_bind_eq_ok.2 ⟨rest, hparts, rfl⟩⟩

-- One induction over the tree and its lists of parts: a part's common shape stands for its
-- members in every bound.
mutual

theorem common_eq_ok : ∀ (g : Grouping) {c : Shape}, g.common = .ok c ↔ IsJoin g.members c
  | .shape s, c => by
    have hself : IsJoin [s] s := isJoin_of_forall_eq (by simp) (by simp)
    constructor
    · intro h
      cases h
      exact hself
    · intro h
      rw [h.unique hself]
      rfl
  | .group parts, c => by
    have hbounds := commonOf_bounds parts
    rw [common, members, Update.except_bind_eq_ok]
    constructor
    · intro h
      obtain ⟨cs, hcs, hc⟩ := h
      exact (isJoin_congr (hbounds.1 hcs)).1 (broadcastAll_eq_ok.1 hc)
    · intro h
      obtain ⟨cs, hcs⟩ := hbounds.2 h.bound
      exact ⟨cs, hcs, broadcastAll_eq_ok.2 ((isJoin_congr (hbounds.1 hcs)).2 h)⟩

/-- The common shapes of the parts expand to what all members expand to, and there are such as
soon as the members have a common expansion. -/
theorem commonOf_bounds : ∀ (parts : List Grouping),
    (∀ {cs}, commonOf parts = .ok cs → ∀ d : Shape, (∀ c ∈ cs, c.expandsTo d = true) ↔
      ∀ s ∈ membersOf parts, s.expandsTo d = true) ∧
    ∀ {d : Shape}, (∀ s ∈ membersOf parts, s.expandsTo d = true) → ∃ cs, commonOf parts = .ok cs
  | [] => by
    refine ⟨fun h d => ?_, fun _ => ⟨[], rfl⟩⟩
    cases h
    rfl
  | g :: parts => by
    have hfirst := @common_eq_ok g
    have hrest := commonOf_bounds parts
    rw [membersOf]
    refine ⟨fun h d => ?_, fun {d} h => ?_⟩
    · obtain ⟨c, rest, hc, hparts, rfl⟩ := commonOf_cons_eq_ok.1 h
      rw [List.forall_mem_cons, List.forall_mem_append, (hfirst.1 hc).forall_expandsTo_iff,
        hrest.1 hparts d]
    · rw [List.forall_mem_append] at h
      obtain ⟨c, hc, -⟩ := broadcastAll_of_bound h.1
      obtain ⟨rest, hparts⟩ := hrest.2 h.2
      have hjoin : IsJoin g.members c := broadcastAll_eq_ok.1 hc
      exact ⟨c :: rest, commonOf_cons_eq_ok.2 ⟨c, rest, hfirst.2 hjoin, hparts, rfl⟩⟩

end

theorem common_pair (g h : Grouping) :
    (group [g, h]).common = (do broadcast (← g.common) (← h.common)) := by
  cases hg : g.common with
  | error e => simp [common, commonOf, hg, bind, Except.bind]
  | ok a =>
    cases hh : h.common with
    | error e => simp [common, commonOf, hg, hh, bind, Except.bind]
    | ok b =>
      simp [common, commonOf, hg, hh, bind, Except.bind, pure, Except.pure, broadcastAll_pair]

theorem common_congr {g h : Grouping} (hmem : ∀ s, s ∈ g.members ↔ s ∈ h.members) :
    g.common.toOption = h.common.toOption := by
  have hsame : ∀ c, g.common = .ok c ↔ h.common = .ok c := by
    intro c
    rw [common_eq_ok, common_eq_ok]
    refine isJoin_congr fun d => ?_
    simp only [hmem]
  cases hg : g.common with
  | ok c => rw [(hsame c).1 hg]
  | error e =>
    cases hh : h.common with
    | ok c => rw [(hsame c).2 hh] at hg; cases hg
    | error e' => rfl

theorem membersOf_shapes (shapes : List Shape) : membersOf (shapes.map shape) = shapes := by
  induction shapes with
  | nil => rfl
  | cons s shapes ih =>
    rw [List.map_cons, membersOf, members, ih]
    rfl

theorem commonOf_shapes (shapes : List Shape) : commonOf (shapes.map shape) = .ok shapes := by
  induction shapes with
  | nil => rfl
  | cons s shapes ih => exact commonOf_cons_eq_ok.2 ⟨s, shapes, rfl, ih, rfl⟩

theorem common_shapes (shapes : List Shape) :
    (group (shapes.map shape)).common = broadcastAll shapes := by
  rw [common, commonOf_shapes]
  rfl

end Grouping

/-! ## Two and three shapes -/

theorem broadcast_self (a : Shape) : broadcast a a = .ok a :=
  broadcast_of_expandsTo (expandsTo_refl a)

theorem broadcast_comm_toOption (a b : Shape) :
    (broadcast a b).toOption = (broadcast b a).toOption := by
  have hsame : ∀ s, s ∈ (Grouping.group [.shape a, .shape b]).members ↔
      s ∈ (Grouping.group [.shape b, .shape a]).members := by
    intro s
    simp [Grouping.members, Grouping.membersOf, or_comm]
  have hcommon := Grouping.common_congr hsame
  rwa [Grouping.common_pair, Grouping.common_pair] at hcommon

theorem broadcast_assoc (a b c : Shape) :
    (do broadcast (← broadcast a b) c : Except TensorError Shape).toOption =
      (do broadcast a (← broadcast b c) : Except TensorError Shape).toOption := by
  have hsame : ∀ s, s ∈ (Grouping.group [.group [.shape a, .shape b], .shape c]).members ↔
      s ∈ (Grouping.group [.shape a, .group [.shape b, .shape c]]).members := by
    intro s
    simp [Grouping.members, Grouping.membersOf]
  have hcommon := Grouping.common_congr hsame
  rwa [Grouping.common_pair, Grouping.common_pair, Grouping.common_pair, Grouping.common_pair]
    at hcommon

/-! ## The least common expansion -/

/-- Shapes broadcast together exactly when they have a common expansion, and then to the least
one. Broadcasting them in stages, in any order and any of them repeatedly, returns the same shape
or, as broadcasting them at once, none. -/
theorem broadcastAll_least (shapes : List Shape) :
    ((∃ c, broadcastAll shapes = .ok c) ↔ ∃ d, ∀ s ∈ shapes, s.expandsTo d = true) ∧
      (∀ c, broadcastAll shapes = .ok c → (∀ s ∈ shapes, s.expandsTo c = true) ∧
        ∀ d : Shape, (∀ s ∈ shapes, s.expandsTo d = true) → c.expandsTo d = true) ∧
      (∀ g : Grouping, (∀ s, s ∈ g.members ↔ s ∈ shapes) →
        g.common.toOption = (broadcastAll shapes).toOption) ∧
      (∀ a b : Shape, (broadcast a b).toOption = (broadcast b a).toOption) ∧
      (∀ a b c : Shape, (do broadcast (← broadcast a b) c : Except TensorError Shape).toOption =
        (do broadcast a (← broadcast b c) : Except TensorError Shape).toOption) ∧
      ∀ a : Shape, broadcast a a = .ok a := by
  refine ⟨⟨fun h => ?_, fun h => ?_⟩, fun c h => ?_, fun g hmem => ?_, broadcast_comm_toOption,
    broadcast_assoc, broadcast_self⟩
  · obtain ⟨c, hc⟩ := h
    exact ⟨c, broadcastAll_expandsTo hc⟩
  · obtain ⟨d, hd⟩ := h
    obtain ⟨c, hc, -⟩ := broadcastAll_of_bound hd
    exact ⟨c, hc⟩
  · have hjoin := broadcastAll_eq_ok.1 h
    exact ⟨hjoin.bound, fun d hd => hjoin.least hd⟩
  · rw [← Grouping.common_shapes]
    refine Grouping.common_congr fun s => ?_
    rw [hmem, Grouping.members, Grouping.membersOf_shapes]

example : broadcastAll [[3, 1], [0, 1, 4], []] = .ok [0, 3, 4] := rfl

end TieredCalculus.Shape
