import Mathlib.Algebra.Ring.Int.Defs
import TieredCalculus.Proofs.Assembly.Packing
import TieredCalculus.Proofs.Axis.Levels

/-! # Packing vectors along an axis

The values of the variables of an axis are packed one after another. The result holds in the
range of every variable its value, expanded to the least common expansion of the batch shapes
of all values, and zeros where the value is absent. Unpacking cuts the ranges out again, so it
gives back what was packed, and packing what was unpacked gives back the vector.
-/

namespace TieredCalculus

namespace Axis

open Tensor AxisPlan

variable {α : Type}

def presentValues (axis : Axis) (values : PathMap (Tensor α)) : List (Tensor α) :=
  axis.leaves.filterMap fun v => values.get? v.name

def ValuesFit (axis : Axis) (values : PathMap (Tensor α)) : Prop :=
  ∀ v ∈ axis.leaves, ∀ t, values.get? v.name = some t → t.middle = [] ∧ t.base = [v.storage]

variable [Zero α] {axis : Axis} {values : PathMap (Tensor α)}

/-- What is packed are values that fit, and the result stacks them over the least common
expansion of their batch shapes. -/
theorem stacks_of_pack (haxis : axis.Laid) {t : Tensor α} (h : axis.pack values = .ok t) :
    ValuesFit axis values ∧ presentValues axis values ≠ [] ∧
      Shape.IsJoin ((presentValues axis values).map (·.batch)) t.batch ∧
      Stacks axis.leaves (fun v => values.get? v.name) [] [] t.batch t := by
  obtain ⟨hfit, hjoined⟩ := (pack_eq_ok haxis.consecutive).1 h
  cases hjoined with
  | @stacked batch _ hpresent hjoin hstacks =>
    obtain rfl := hstacks.batch_eq
    obtain ⟨v, hv, hsome⟩ := hpresent
    obtain ⟨s, hs⟩ := Option.isSome_iff_exists.1 hsome
    exact ⟨hfit, List.ne_nil_of_mem (List.mem_filterMap.2 ⟨v, hv, hs⟩), hjoin, hstacks⟩

theorem pack_isOk_iff (haxis : axis.Laid) :
    (∃ t, axis.pack values = .ok t) ↔
      ValuesFit axis values ∧ presentValues axis values ≠ [] ∧ ∃ batch,
        Shape.broadcastAll ((presentValues axis values).map (·.batch)) = .ok batch := by
  constructor
  · rintro ⟨t, ht⟩
    obtain ⟨hfit, hne, hjoin, -⟩ := stacks_of_pack haxis ht
    exact ⟨hfit, hne, t.batch, Shape.broadcastAll_eq_ok.2 hjoin⟩
  · rintro ⟨hfit, hne, batch, hbatch⟩
    have hjoin := Shape.broadcastAll_eq_ok.1 hbatch
    obtain ⟨result, hresult⟩ : ∃ result,
        Joined axis.leaves (fun v => values.get? v.name) [] [] result :=
      exists_joined haxis.consecutive hfit (batch_expandsTo hjoin)
    cases hresult with
    | stacked hpresent hjoin' hstacks =>
      exact ⟨_, (pack_eq_ok haxis.consecutive).2 ⟨hfit, .stacked hpresent hjoin' hstacks⟩⟩
    | absent habsent => exact absurd (List.filterMap_eq_nil_iff.2 habsent) hne

theorem Stacks.shows {value : VariableLayout → Option (Tensor α)} {vars : List VariableLayout}
    {batch : Shape} {t part : Tensor α} (ht : Stacks vars value [] [] batch t)
    {v : VariableLayout} (hv : v ∈ vars) (h : Window t batch [] [] v.start v.storage [] part) :
    Shows (value v) batch [v.storage] part := by
  refine ⟨h.batch_eq, h.middle_eq, h.base_eq, fun {b e} hb he => ?_⟩
  match e, he with
  | [j], ⟨hj, _⟩ =>
    have hin : Shape.InBounds (batch ++ [] ++ []) b := by simpa using hb
    have hread := ht.entry_eq v hv (p := []) (q := []) hb trivial hj trivial
    rw [List.append_nil] at hread
    rw [h.entry_eq (c := []) hin hj trivial, hread]
    rfl

theorem Laid.window_slice (haxis : axis.Laid) {t part : Tensor α} (hm : t.middle = [])
    (hbase : t.base = [axis.size]) {v : VariableLayout} (hv : v ∈ axis.leaves)
    (h : Window t t.batch [] [] v.start v.storage [] part) :
    t.slice 0 v.start v.stop = .ok part := by
  have hslab : Slab t.batch [] [] axis.size [] t := ⟨rfl, hm, hbase⟩
  exact h.slice_eq hslab (haxis.stop_le hv)

theorem unpack_pack (haxis : axis.Laid) {t : Tensor α} (h : axis.pack values = .ok t) :
    ∃ parts, axis.unpack t = .ok parts ∧ (∀ p, (parts.get? p).isSome → p ∈ axis.names) ∧
      ∀ v ∈ axis.leaves, ∃ part, parts.get? v.name = some part ∧
        t.slice 0 v.start v.stop = .ok part ∧
        (∀ s, values.get? v.name = some s → s.expandBatch t.batch = .ok part) ∧
        (values.get? v.name = none → part = zeros t.batch [] [v.storage]) := by
  obtain ⟨hfit, -, hjoin, hstacks⟩ := stacks_of_pack haxis h
  obtain ⟨parts, hparts, hnames, hwindows⟩ :=
    exists_unpack haxis hstacks.middle_eq hstacks.base_eq
  refine ⟨parts, hparts, hnames, fun v hv => ?_⟩
  obtain ⟨part, hpart, hwindow⟩ := hwindows v hv
  have hshows := hstacks.shows hv hwindow
  refine ⟨part, hpart, haxis.window_slice hstacks.middle_eq hstacks.base_eq hv hwindow,
    fun s hs => ?_, fun hnone => ?_⟩
  · obtain ⟨hm, hbase⟩ := hfit v hv s hs
    obtain ⟨w, hw, hsame⟩ := shows_expandBatch hm hbase (batch_expandsTo hjoin v hv s hs)
    rw [hs] at hshows
    rw [hw, hsame.unique hshows]
  · rw [hnone] at hshows
    exact hshows.unique (shows_zeros _ _)

theorem pack_unpack (haxis : axis.Laid) (hne : axis.leaves ≠ []) {t : Tensor α}
    (hm : t.middle = []) (hbase : t.base = [axis.size]) :
    ∃ parts, axis.unpack t = .ok parts ∧ axis.pack parts = .ok t := by
  obtain ⟨parts, hparts, -, hwindows⟩ := exists_unpack haxis hm hbase
  have hwindow : ∀ v ∈ axis.leaves, ∀ s, parts.get? v.name = some s →
      Window t t.batch [] [] v.start v.storage [] s := by
    intro v hv s hs
    obtain ⟨part, hpart, hwindow⟩ := hwindows v hv
    rw [hs] at hpart
    cases hpart
    exact hwindow
  obtain ⟨v, hv⟩ := List.exists_mem_of_ne_nil _ hne
  obtain ⟨part, hpart, -⟩ := hwindows v hv
  have hpresent : presentValues axis parts ≠ [] :=
    List.ne_nil_of_mem (List.mem_filterMap.2 ⟨v, hv, hpart⟩)
  have hjoin : Shape.IsJoin ((presentValues axis parts).map (·.batch)) t.batch := by
    refine Shape.isJoin_of_forall_eq (by simpa using hpresent) ?_
    rw [List.forall_mem_map]
    intro s hs
    obtain ⟨w, hw, hws⟩ := List.mem_filterMap.1 hs
    exact (hwindow w hw s hws).batch_eq
  refine ⟨parts, hparts, (pack_eq_ok haxis.consecutive).2 ⟨fun w hw s hs =>
    ⟨(hwindow w hw s hs).middle_eq, (hwindow w hw s hs).base_eq⟩,
    .stacked ⟨v, hv, by rw [hpart]; rfl⟩ hjoin ⟨⟨rfl, hm, hbase⟩, ?_⟩⟩⟩
  intro w hw b p q j hb hp hj hq
  obtain ⟨s, hs, hcut⟩ := hwindows w hw
  have hin : Shape.InBounds (t.batch ++ [] ++ []) (b ++ p) := by
    rw [List.append_nil]
    exact Shape.inBounds_append hb hp
  rw [← hcut.entry_eq hin hj hq, hs]
  change _ = s.entry (s.batch.project b ++ (p ++ j :: q))
  rw [hcut.batch_eq, Shape.project_of_inBounds hb, List.append_assoc]

/-- Values are packed along an axis of declarations exactly when those on the axis fit their
variables, there is one and their batch shapes broadcast. The vector then has in the range of
every variable its value at each batch index, zeros where it is absent, and unpacking maps the
names of the variables, and no others, to these ranges. Where the axis has a variable, every
vector is packed from what it is unpacked into. -/
theorem pack_ranges {axis : Axis} (haxis : axis.Formed) (values : PathMap (Tensor α)) :
    ((∃ t, axis.pack values = .ok t) ↔
      ValuesFit axis values ∧ presentValues axis values ≠ [] ∧ ∃ batch,
        Shape.broadcastAll ((presentValues axis values).map (·.batch)) = .ok batch) ∧
    (∀ t, axis.pack values = .ok t →
      (Shape.broadcastAll ((presentValues axis values).map (·.batch)) = .ok t.batch ∧
        t.middle = [] ∧ t.base = [axis.size]) ∧
      (∀ v ∈ axis.leaves, ∀ b i, Shape.InBounds t.batch b → v.Covers i →
        t.entry (b ++ [i]) = partEntry (values.get? v.name) b [i - v.start]) ∧
      ∃ parts, axis.unpack t = .ok parts ∧ (∀ p, (parts.get? p).isSome → p ∈ axis.names) ∧
        ∀ v ∈ axis.leaves, ∃ part, parts.get? v.name = some part ∧
          t.slice 0 v.start v.stop = .ok part ∧
          (∀ s, values.get? v.name = some s → s.expandBatch t.batch = .ok part) ∧
          (values.get? v.name = none → part = zeros t.batch [] [v.storage])) ∧
    (axis.leaves ≠ [] → ∀ t : Tensor α, t.middle = [] → t.base = [axis.size] →
      ∃ parts, axis.unpack t = .ok parts ∧ axis.pack parts = .ok t) := by
  have hlaid := haxis.laid
  refine ⟨pack_isOk_iff hlaid, fun t ht => ?_,
    fun hne t hm hbase => pack_unpack hlaid hne hm hbase⟩
  obtain ⟨-, -, hjoin, hstacks⟩ := stacks_of_pack hlaid ht
  refine ⟨⟨Shape.broadcastAll_eq_ok.2 hjoin, hstacks.middle_eq, hstacks.base_eq⟩, ?_,
    unpack_pack hlaid ht⟩
  rintro v hv b i hb ⟨hle, hlt⟩
  rw [VariableLayout.stop] at hlt
  have hplace := hstacks.entry_eq v hv (p := []) (q := []) hb trivial
    (show i - v.start < v.storage by omega) trivial
  rwa [List.append_nil, Nat.add_sub_cancel' hle] at hplace

/-- A value per batch entry, a value without batch and, between them, none. -/
def sparseValues : PathMap (Tensor Int) :=
  .ofList [("z", ⟨[2], [], [1], #[5, 7], rfl⟩), ("m/s/x", ⟨[], [], [2], #[3, 4], rfl⟩)]

theorem pack_sparseValues :
    ∃ t, nestedPlan.freeze.pack sparseValues = .ok t ∧ t.batch = [2] ∧ t.base = [6] ∧
      t.entry [1, 0] = 7 ∧ t.entry [1, 2] = 0 ∧ t.entry [1, 5] = 4 := by
  obtain ⟨hok, hresult, -⟩ := pack_ranges (.frozen built_nestedPlan) sparseValues
  have hfit : ∀ v ∈ nestedPlan.freeze.leaves, ∀ t ∈ sparseValues.get? v.name,
      t.middle = [] ∧ t.base = [v.storage] := by
    decide +kernel
  have hjoin : Shape.broadcastAll ((presentValues nestedPlan.freeze sparseValues).map
      (·.batch)) = .ok [2] := rfl
  have hpresent : presentValues nestedPlan.freeze sparseValues ≠ [] := by
    intro h
    rw [h] at hjoin
    cases hjoin
  obtain ⟨t, ht⟩ := hok.2 ⟨hfit, hpresent, [2], hjoin⟩
  obtain ⟨⟨hbatch, -, hbase⟩, hentry, -⟩ := hresult t ht
  rw [hjoin] at hbatch
  have hleaves : nestedPlan.freeze.leaves =
      [⟨"z", [], [], 0⟩, ⟨"m/a", [3], [], 1⟩, ⟨"m/s/x", [], [2], 4⟩] := rfl
  have hin : Shape.InBounds t.batch [1] := by
    rw [← Except.ok.inj hbatch]
    decide
  refine ⟨t, ht, (Except.ok.inj hbatch).symm, hbase, ?_, ?_, ?_⟩
  · exact hentry ⟨"z", [], [], 0⟩ (by simp [hleaves]) [1] 0 hin ⟨by decide, by decide⟩
  · exact hentry ⟨"m/a", [3], [], 1⟩ (by simp [hleaves]) [1] 2 hin ⟨by decide, by decide⟩
  · exact hentry ⟨"m/s/x", [], [2], 4⟩ (by simp [hleaves]) [1] 5 hin ⟨by decide, by decide⟩

end Axis

end TieredCalculus
