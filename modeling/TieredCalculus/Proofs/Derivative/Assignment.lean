import TieredCalculus.Proofs.Derivative.Expansion
import TieredCalculus.Proofs.Derivative.Failures

/-! # What an assignment stores

An assignment reads as many trailing intermediate dimensions of a value as the derivative counts,
after unit dimensions behind the last one where the value has fewer. With more dimensions counted
than the target has, the block has to be the dense one already. Otherwise it is stored wherever
it expands to the intrinsic shape of the target, and every other block is refused.
-/

namespace TieredCalculus.Derivative

open Tensor

variable {α : Type} {n : Nat} {d : Derivative α n} {block : Shape}

/-- Whether a block of as many dimensions as are counted is stored. -/
def Accepts (d : Derivative α n) (block : Shape) : Prop :=
  if d.target.intrinsic < d.intrinsic then block = d.denseShape
  else block.expandsTo d.target.intrinsicShape = true

instance (d : Derivative α n) (block : Shape) : Decidable (d.Accepts block) :=
  inferInstanceAs (Decidable (if d.target.intrinsic < d.intrinsic then block = d.denseShape
    else block.expandsTo d.target.intrinsicShape = true))

theorem Ranked.accepts_iff (h : d.Ranked) (hc : d.intrinsic = block.length) :
    d.Accepts block ↔
      block = d.denseShape ∨ block.expandsTo d.target.intrinsicShape = true := by
  have htarget := length_intrinsicShape (List.forall_mem_cons.1 h).1
  unfold Accepts
  by_cases hlt : d.target.intrinsic < d.intrinsic
  · rw [if_pos hlt]
    refine (or_iff_left fun hexp => ?_).symm
    have hle := Shape.expandsTo_length hexp
    omega
  · rw [if_neg hlt]
    refine (or_iff_right_of_imp fun hdense => ?_).symm
    have htotal : d.total ≤ d.target.intrinsic := by
      rw [← h.length_denseShape, ← hdense, ← hc]
      exact Nat.le_of_not_lt hlt
    rw [hdense, h.denseShape_eq_target htotal]
    exact Shape.expandsTo_refl _

theorem Ranked.storedBlock_of_dense (h : d.Ranked) (hc : d.intrinsic = d.denseShape.length) :
    d.storedBlock = d.denseShape :=
  if_pos (hc.trans h.length_denseShape)

theorem Ranked.storedBlock_of_expandsTo (h : d.Ranked) (hc : d.intrinsic = block.length)
    (hexp : block.expandsTo d.target.intrinsicShape = true) :
    d.storedBlock = d.target.intrinsicShape := by
  have htarget := length_intrinsicShape (List.forall_mem_cons.1 h).1
  have hle := Shape.expandsTo_length hexp
  unfold storedBlock
  split
  · exact h.denseShape_eq_target (by omega)
  · rfl

variable [Zero α]

/-- Whether a value of the right base is stored depends on the block at its end alone. What is
stored spans the full block of the form, and every entry is the entry of the value from which it
is expanded. -/
theorem assign_stores {t : Tensor α}
    (hcheck : checkDeclaration d.intrinsic d.target d.arguments.toList = .ok ())
    (hbase : t.base = d.base) :
    ∃ tier block, block.length = d.intrinsic ∧
      t.middle ++ List.replicate (d.intrinsic - t.middle.length) 1 = tier ++ block ∧
      (d.Accepts block → ∃ w, (assign t).outcome d = (.ok (), { d with value := some w }) ∧
        w.View t.batch (tier ++ d.storedBlock) t.base fun b m k =>
          t.cell b ((m.take tier.length ++ block.project (m.drop tier.length)).take
            t.middle.length) k) ∧
      (¬d.Accepts block → (assign t).outcome d =
        (.error (.middleShapeMismatch d.name d.target.intrinsicShape block), d)) := by
  have hd : d.Ranked := (checkDeclaration_eq_ok_iff.1 hcheck).1
  obtain ⟨t', tier, block, -, hsame, hc, hsplit, vt'⟩ := exists_padded d t
  have hm := vt'.middle_eq
  refine ⟨tier, block, hc.symm, hsplit, fun haccepts => ?_, fun hrefuses => ?_⟩
  · by_cases hdense : block = d.denseShape
    · subst hdense
      refine ⟨t', assign_outcome_eq_ok.2 (withValue_eq_ok.2 ⟨hbase, t', ?_, rfl⟩), ?_⟩
      · rw [hsame, expandIntrinsic_dense hm hc]
      · rw [hd.storedBlock_of_dense hc]
        refine vt'.congr fun {b m k} _ hm' _ => ?_
        obtain ⟨e, p, rfl, he, hp⟩ := Shape.exists_append_of_inBounds hm'
        rw [List.take_left' he.length_eq, List.drop_left' he.length_eq,
          Shape.project_of_inBounds hp]
    · have hexp := ((hd.accepts_iff hc).1 haccepts).resolve_left hdense
      obtain ⟨w, hw, vw⟩ := expandIntrinsic_own hm hc hdense hexp
      refine ⟨w, assign_outcome_eq_ok.2 (withValue_eq_ok.2 ⟨hbase, w, hsame.trans hw, rfl⟩), ?_⟩
      rw [hd.storedBlock_of_expandsTo hc hexp]
      refine ⟨vw.batch_eq.trans vt'.batch_eq, vw.middle_eq, vw.base_eq.trans vt'.base_eq,
        fun {b m k} hb hm' hk => ?_⟩
      obtain ⟨e, p, rfl, he, hp⟩ := Shape.exists_append_of_inBounds hm'
      have hin := Shape.inBounds_append he (Shape.project_inBounds hexp hp)
      rw [vw.cell_eq (vt'.batch_eq ▸ hb) hm' (vt'.base_eq ▸ hk), List.take_left' he.length_eq,
        List.drop_left' he.length_eq, vt'.cell_eq hb hin hk]
  · rw [hd.accepts_iff hc, not_or] at hrefuses
    obtain ⟨hdense, hexp⟩ := hrefuses
    have hrefused := hsame.trans (expandIntrinsic_refused hm hc hdense hexp)
    refine Update.outcome_eq_error.2 (assign_eq_error.2 ⟨?_, rfl⟩)
    unfold withValue checkBase
    rw [if_pos hbase, hrefused]
    rfl

/-- A derivative by a quantity of the same intrinsic shape, of which it counts two dimensions. -/
def twoCounted (shape : Shape) : Derivative ℚ 1 :=
  ⟨2, ⟨"y", shape, shape.length, []⟩, #v[⟨"x", shape, shape.length, []⟩], none⟩

theorem twoCounted_stores : ∃ w : Tensor ℚ,
    (assign ⟨[], [2], [], #[5, 7], rfl⟩).outcome (twoCounted [2, 2]) =
      (.ok (), { twoCounted [2, 2] with value := some w }) ∧
    w.middle = [2, 2] ∧ w.cell [] [0, 1] 0 = 5 ∧ w.cell [] [1, 0] 0 = 7 := by
  obtain ⟨tier, block, hlen, hsplit, haccepted, -⟩ :=
    assign_stores (t := (⟨[], [2], [], #[5, 7], rfl⟩ : Tensor ℚ)) (d := twoCounted [2, 2]) rfl rfl
  have hpadded : ([] : Shape) ++ [2, 1] = tier ++ block := hsplit
  obtain ⟨rfl, rfl⟩ := List.append_inj' hpadded hlen.symm
  obtain ⟨w, hw, v⟩ := haccepted (by decide)
  refine ⟨w, hw, v.middle_eq, ?_, ?_⟩
  · exact v.cell_eq trivial (m := [0, 1]) (by decide) Nat.one_pos
  · exact v.cell_eq trivial (m := [1, 0]) (by decide) Nat.one_pos

/-- One row for a grid is stored as a column of it, though it expands to the grid as a row. A
dense block with a unit dimension is refused, though it expands to the dense shape. -/
theorem twoCounted_misaligns :
    (((assign ⟨[], [2], [], #[5, 7], rfl⟩).outcome (twoCounted [2, 2])).2.value.map (·.toList) =
        some [5, 5, 7, 7] ∧
      ((⟨[], [2], [], #[5, 7], rfl⟩ : Tensor ℚ).expandMiddle [2, 2]).toOption.map (·.toList) =
        some [5, 7, 5, 7]) ∧
    ((assign ⟨[], [1, 2], [], #[5, 7], rfl⟩).outcome (twoCounted [2])).1 =
        .error (.middleShapeMismatch "d(y)/d(x)" [2] [1, 2]) ∧
      Shape.expandsTo [1, 2] (twoCounted [2]).storedBlock = true := by
  decide +kernel

end TieredCalculus.Derivative
