import TieredCalculus.Proofs.Derivative.Assembly
import TieredCalculus.Proofs.Naming
import TieredCalculus.Variable

/-! # Blocks of a Jacobian

The derivative of a variable by an argument is declared in dense form on first use, and assembled
to the block of the argument. Which entries stand on the diagonal of that block is decided from
shapes, while the counts of intrinsic dimensions say which dimensions target and argument share.
The two agree except where the argument is intrinsic and leading dimensions of the target are left
out: there the dimensions of the argument are taken for those of the target.
-/

namespace TieredCalculus

namespace Tensor

variable {α : Type} [Zero α]

/-- The second tensor is the first with unit dimensions at the end of its intermediate shape,
where that has fewer dimensions than the rank. -/
def PaddedTo (t : Tensor α) (rank : Nat) (s : Tensor α) : Prop :=
  s.View t.batch (t.middle ++ List.replicate (rank - t.middle.length) 1) t.base fun b w k =>
    t.cell b (w.take t.middle.length) k

/-- A matrix of derivatives: its entry for the intermediate indices `p` of the target and `q` of
the argument is that of the tensor at the intermediate index that is read there, or zero. -/
def BlockOf (t : Tensor α) (y x : Quantity) (read : Index → Index → Option Index)
    (r : Tensor α) : Prop :=
  r.Assembled t.batch y.middle y.base x.middle x.base fun b p i q j =>
    match read p q with
    | some w => t.entry (b ++ w ++ (i ++ j))
    | none => 0

theorem BlockOf.congr {t r : Tensor α} {y x : Quantity} {read read' : Index → Index → Option Index}
    (h : t.BlockOf y x read r)
    (hread : ∀ {p q}, Shape.InBounds y.middle p → Shape.InBounds x.middle q →
      read p q = read' p q) : t.BlockOf y x read' r :=
  Assembled.congr h fun hb hp hi hq hj => by rw [hread hp hq]

end Tensor

namespace Derivative

open Tensor

variable {α : Type} [Zero α] {y x : Quantity} {value : Option (Tensor α)} {r t s w : Tensor α}
  {tier block : Shape}

/-! ## Dense declarations -/

def denseBy (y x : Quantity) (value : Option (Tensor α)) : Derivative α 1 :=
  ⟨y.intrinsic + x.intrinsic, y, .singleton x, value⟩

omit [Zero α] in
theorem not_isDiagonal_denseBy : ¬(denseBy y x value).isDiagonal = true := by
  rw [isDiagonal_iff]
  exact Nat.lt_irrefl _

omit [Zero α] in
theorem denseShape_denseBy :
    (denseBy y x value).denseShape = y.intrinsicShape ++ x.intrinsicShape :=
  denseShape_eq _

theorem dense_denseBy [Scalar α] (hfin : ∀ x : α, Scalar.isFinite x = true) (w : Tensor α) :
    (denseBy y x (some w)).dense = .ok w :=
  dense_of_not_diagonal hfin not_isDiagonal_denseBy rfl

def extrinsicPart (t : Tensor α) (y x : Quantity) : Shape :=
  t.middle.take (t.middle.length - (y.intrinsic + x.intrinsic))

/-- What is assigned to a dense declaration is stored as it is, padded. Without intrinsic
dimensions of the argument it may also be broadcast to the intrinsic shape of the target. -/
theorem exists_stored_denseBy (h : (denseBy y x value).expandIntrinsic t = .ok w) :
    ∃ s block, t.PaddedTo (y.intrinsic + x.intrinsic) s ∧
      s.middle = extrinsicPart t y x ++ block ∧ block.length = y.intrinsic + x.intrinsic ∧
      (block = y.intrinsicShape ++ x.intrinsicShape ∧ w = s ∨
        block ≠ y.intrinsicShape ++ x.intrinsicShape ∧
          block.expandsTo y.intrinsicShape = true ∧
          w.View s.batch (extrinsicPart t y x ++ y.intrinsicShape) s.base fun b m k =>
            s.cell b (m.take (extrinsicPart t y x).length ++
              block.project (m.drop (extrinsicPart t y x).length)) k) := by
  obtain ⟨s, tier, block, hs, hm, hcount, hstored⟩ := exists_expands h
  obtain ⟨s', hs', vs⟩ := padIntrinsic_view (denseBy y x value) t
  rw [hs] at hs'
  cases hs'
  have hblock : block.length = y.intrinsic + x.intrinsic := hcount.symm
  have htier : tier = extrinsicPart t y x := by
    have hlength := congrArg List.length (hm.symm.trans vs.middle_eq)
    simp only [List.length_append, List.length_replicate, hblock] at hlength
    have hrank : tier.length = t.middle.length - (y.intrinsic + x.intrinsic) := by
      change _ = _ + (y.intrinsic + x.intrinsic - _) at hlength
      omega
    have htake := congrArg (List.take tier.length) (hm.symm.trans vs.middle_eq)
    rw [List.take_left, hrank, List.take_append_of_le_length (Nat.sub_le _ _)] at htake
    exact htake
  subst htier
  rw [denseShape_denseBy] at hstored
  exact ⟨s, block, vs, hm, hblock, hstored⟩

/-! ## Assembled blocks -/

section Blocks

variable [Scalar α]

theorem blockOf_flat (hfin : ∀ x : α, Scalar.isFinite x = true) (hbase : s.base = y.base ++ x.base)
    (hm : s.middle = y.middle ++ x.middle) (hr : (denseBy y x (some s)).assembled = .ok r) :
    s.BlockOf y x (fun p q => some (s.middle.project (p ++ q))) r := by
  obtain ⟨r', hr', hra⟩ := assembled_intrinsic (dense_denseBy hfin s) hm hbase
  cases hr.symm.trans hr'
  have hblock : s.BlockOf y x (fun p q => some (p ++ q)) r := hra
  refine hblock.congr fun hp hq => ?_
  rw [hm, Shape.project_of_inBounds (Shape.inBounds_append hp hq)]

theorem blockOf_unit (hfin : ∀ x : α, Scalar.isFinite x = true) (hbase : s.base = y.base ++ x.base)
    (hne : s.middle ≠ y.middle ++ x.middle) (hone : x.middle.numel = 1)
    (hr : (denseBy y x (some s)).assembled = .ok r) :
    s.BlockOf y x (fun p _ => some (s.middle.project p)) r := by
  obtain ⟨hexp, -⟩ := (assembled_cases (dense_denseBy hfin _) hr).resolve_left hne
  obtain ⟨r', hr', hra⟩ := assembled_unit (dense_denseBy hfin s) hbase hne hexp hone
  cases hr.symm.trans hr'
  exact hra

theorem blockOf_diagonal (hfin : ∀ x : α, Scalar.isFinite x = true)
    (hbase : s.base = y.base ++ x.base) (hexp : s.middle.expandsTo y.middle = true)
    (hsame : y.middle = x.middle) (hr : (denseBy y x (some s)).assembled = .ok r) :
    s.BlockOf y x (fun p q => if p = q then some (s.middle.project p) else none) r := by
  obtain ⟨r', hr', hra⟩ := assembled_extrinsic (dense_denseBy hfin s) rfl hsame.symm hexp hbase
  cases hr.symm.trans hr'
  unfold BlockOf
  rw [← hsame]
  refine hra.congr fun {b p i q j} _ _ _ _ _ => ?_
  by_cases hpq : p = q
  · simp only [hpq, if_true]
  · simp only [hpq, if_false]

theorem blockOf_broadcast (hfin : ∀ x : α, Scalar.isFinite x = true)
    (hbase : s.base = y.base ++ x.base) (hx : x.middle = [])
    (hexp : s.middle.expandsTo y.middle = true)
    (hw : w.View s.batch y.middle s.base fun b m k => s.cell b (s.middle.project m) k)
    (hr : (denseBy y x (some w)).assembled = .ok r) :
    s.BlockOf y x (fun p q => some (s.middle.project (p ++ q))) r := by
  have hm : w.middle = y.middle ++ x.middle := by rw [hw.middle_eq, hx, List.append_nil]
  have hflat := blockOf_flat hfin (hw.base_eq.trans hbase) hm hr
  unfold BlockOf at hflat ⊢
  rw [hw.batch_eq] at hflat
  refine hflat.congr fun {b p i q j} hb hp hi hq hj => ?_
  have hpq : Shape.InBounds y.middle (p ++ q) := by
    rw [← hw.middle_eq, hm]
    exact Shape.inBounds_append hp hq
  have hij : Shape.InBounds s.base (i ++ j) := hbase ▸ Shape.inBounds_append hi hj
  dsimp only
  rw [hw.middle_eq, Shape.project_of_inBounds hpq, hw.entry_eq hb hpq hij,
    entry_eq_cell s (i ++ j) hb.length_eq (Shape.project_inBounds hexp hpq).length_eq]

/-- Where the dimensions of an argument with several indices are taken for those of the target, the
value has no others, and it is put on the diagonal. -/
theorem blockOf_mistaken (hfin : ∀ x : α, Scalar.isFinite x = true)
    (hbase : s.base = y.base ++ x.base) (hm : s.middle = tier ++ x.middle)
    (hne : s.middle ≠ y.middle ++ x.middle) (hmany : x.middle.numel ≠ 1)
    (hr : (denseBy y x (some s)).assembled = .ok r) :
    s.middle = x.middle ∧ y.middle = x.middle ∧
      s.BlockOf y x (fun p q => if p = q then some p else none) r := by
  obtain ⟨hexp, hsame⟩ := (assembled_cases (dense_denseBy hfin s) hr).resolve_left hne
  have hyx : y.middle = x.middle := (hsame.resolve_left hmany).symm
  have hlen : s.middle.length ≤ y.middle.length := Shape.expandsTo_length hexp
  have hnone : tier = [] := by
    rw [hm, List.length_append, hyx] at hlen
    exact List.length_eq_zero_iff.1 (by omega)
  have hsm : s.middle = x.middle := by rw [hm, hnone, List.nil_append]
  refine ⟨hsm, hyx, (blockOf_diagonal hfin hbase hexp hyx hr).congr fun {p q} hp _ => ?_⟩
  rw [hsm, ← hyx, Shape.project_of_inBounds hp]

/-- The block of an argument, by the kinds of target and argument. The last two fields are about a
value that leaves out dimensions of an extrinsic target. -/
structure JacobianBlock (y x : Quantity) (s r : Tensor α) : Prop where
  shared : y.intrinsic = 0 → x.intrinsic = 0 → y.middle = x.middle →
    s.BlockOf y x (fun p q => if p = q then some (s.middle.project p) else none) r
  independent : x.intrinsic = x.middle.length → (y.intrinsic = y.middle.length ∨
      y.intrinsic = 0 ∧ (x.middle = [] ∨ s.middle = y.middle ++ x.middle)) →
    s.BlockOf y x (fun p q => some (s.middle.project (p ++ q))) r
  unit : x.intrinsic = x.middle.length → y.intrinsic = 0 → s.middle ≠ y.middle ++ x.middle →
    x.middle.numel = 1 → s.BlockOf y x (fun p _ => some (s.middle.project p)) r
  mistaken : x.intrinsic = x.middle.length → y.intrinsic = 0 → s.middle ≠ y.middle ++ x.middle →
    x.middle.numel ≠ 1 → s.middle = x.middle ∧ y.middle = x.middle ∧
      s.BlockOf y x (fun p q => if p = q then some p else none) r

theorem stored_of_extrinsic (hy : y.intrinsic = 0)
    (hblock : block.length = y.intrinsic + x.intrinsic)
    (hexp : block.expandsTo y.intrinsicShape = true) :
    block = y.intrinsicShape ++ x.intrinsicShape := by
  have hlen := Shape.expandsTo_length hexp
  rw [intrinsicShape_of_zero hy, List.length_nil, hblock] at hlen
  have hx : x.intrinsic = 0 := by omega
  rw [intrinsicShape_of_zero hy, intrinsicShape_of_zero hx]
  exact List.length_eq_zero_iff.1 (by omega)

theorem jacobianBlock_of_assembled (hfin : ∀ x : α, Scalar.isFinite x = true)
    (hbase : t.base = y.base ++ x.base) (hw : (denseBy y x value).expandIntrinsic t = .ok w)
    (htier : (extrinsicPart t y x).expandsTo (y.middle.take (y.middle.length - y.intrinsic)) = true)
    (hr : (denseBy y x (some w)).assembled = .ok r) :
    ∃ s, t.PaddedTo (y.intrinsic + x.intrinsic) s ∧ JacobianBlock y x s r := by
  obtain ⟨s, block, hs, hm, hblock, hstored⟩ := exists_stored_denseBy hw
  have hsbase : s.base = y.base ++ x.base := View.base_eq hs |>.trans hbase
  have hextrinsic : y.intrinsic = 0 → w = s ∧ s.middle = extrinsicPart t y x ++ x.intrinsicShape ∧
      (extrinsicPart t y x).expandsTo y.middle = true := by
    intro hy
    rw [hy, Nat.sub_zero, List.take_length] at htier
    rcases hstored with ⟨rfl, rfl⟩ | ⟨hne, hexp, -⟩
    · rw [intrinsicShape_of_zero hy] at hm
      exact ⟨rfl, hm, htier⟩
    · exact absurd (stored_of_extrinsic hy hblock hexp) hne
  refine ⟨s, hs, fun hy hx hsame => ?_, fun hx hkind => ?_, fun hx hy hne hone => ?_,
    fun hx hy hne hmany => ?_⟩
  · obtain ⟨rfl, hsm, hexp⟩ := hextrinsic hy
    rw [intrinsicShape_of_zero hx, List.append_nil] at hsm
    exact blockOf_diagonal hfin hsbase (hsm ▸ hexp) hsame hr
  · rcases hkind with hy | ⟨hy, hshape⟩
    · rw [hy, Nat.sub_self, List.take_zero] at htier
      have hnone : extrinsicPart t y x = [] :=
        List.length_eq_zero_iff.1 (Nat.le_zero.1 (Shape.expandsTo_length htier))
      rw [intrinsicShape_of_all hy, intrinsicShape_of_all hx, hnone] at hstored
      rw [hnone, List.nil_append] at hm
      rcases hstored with ⟨rfl, rfl⟩ | ⟨-, hexp, vw⟩
      · exact blockOf_flat hfin hsbase hm hr
      -- a block of the rank of both that expands to the target alone leaves none for the argument
      · have hlen := Shape.expandsTo_length hexp
        have hxnil : x.middle = [] := List.length_eq_zero_iff.1 (by omega)
        subst hm
        exact blockOf_broadcast hfin hsbase hxnil hexp vw hr
    · obtain ⟨rfl, hsm, -⟩ := hextrinsic hy
      by_cases hflat : w.middle = y.middle ++ x.middle
      · exact blockOf_flat hfin hsbase hflat hr
      · have hnil := hshape.resolve_right hflat
        have hone : x.middle.numel = 1 := by
          rw [hnil]
          rfl
        refine (blockOf_unit hfin hsbase hflat hone hr).congr fun {p q} _ hq => ?_
        rw [hnil] at hq
        rw [List.length_eq_zero_iff.1 hq.length_eq, List.append_nil]
  · obtain ⟨rfl, -, -⟩ := hextrinsic hy
    exact blockOf_unit hfin hsbase hne hone hr
  · obtain ⟨rfl, hsm, -⟩ := hextrinsic hy
    rw [intrinsicShape_of_all hx] at hsm
    exact blockOf_mistaken hfin hsbase hsm hne hmany hr

end Blocks

end Derivative

/-! ## Variables -/

theorem PathMap.exists_get?_of_mapM {ε β γ : Type} {entries : List (Path × β)}
    {f : Path × β → Except ε (Path × γ)} {ys : List (Path × γ)}
    (hnodup : (entries.map (·.1)).Nodup) (hname : ∀ {e y}, f e = .ok y → y.1 = e.1)
    (h : entries.mapM f = .ok ys) {e : Path × β} (he : e ∈ entries) :
    ∃ c, f e = .ok (e.1, c) ∧ (PathMap.ofList ys).get? e.1 = some c := by
  obtain ⟨hlen, hall⟩ := Update.except_mapM_eq_ok h
  have hnames : ys.map (·.1) = entries.map (·.1) := by
    refine List.ext_getElem (by rw [List.length_map, List.length_map, hlen]) fun k hk hk' => ?_
    rw [List.getElem_map, List.getElem_map]
    rw [List.length_map] at hk hk'
    obtain ⟨y, hy, hf⟩ := hall k entries[k] (List.getElem?_eq_getElem hk')
    rw [List.getElem?_eq_getElem hk, Option.some.injEq] at hy
    rw [hy, hname hf]
  obtain ⟨k, hk⟩ := List.getElem?_of_mem he
  obtain ⟨⟨p, c⟩, hy, hf⟩ := hall k e hk
  have hp : p = e.1 := hname hf
  subst hp
  exact ⟨c, hf, PathMap.get?_ofList_of_mem (hnames ▸ hnodup) (List.mem_of_getElem? hy)⟩

namespace Variable

open Tensor TieredCalculus.Derivative

variable {α : Type} [Zero α] {v v' : Variable α} {x : Quantity} {t : Tensor α}

theorem exists_stored_of_assign
    (hdeclared : ∀ d, v.derivative? x.name = some d → ∃ value, d = denseBy v.quantity x value)
    (h : (changeDerivative x (Derivative.assign t)).outcome v = (.ok (), v')) :
    ∃ value w, t.base = v.quantity.base ++ x.base ∧
      (denseBy v.quantity x value).expandIntrinsic t = .ok w ∧ v'.quantity = v.quantity ∧
      v'.first.get? x.name = some (denseBy v.quantity x (some w)) := by
  obtain ⟨d, v₁, hd, hchange⟩ := Update.bind_eq_ok.1 (Update.outcome_eq_ok.1 h)
  obtain ⟨d', hassign, rfl⟩ := Update.onPart_eq_ok.1 hchange
  have hby : v₁.quantity = v.quantity ∧ ∃ value, d = denseBy v.quantity x value := by
    cases hfound : v.derivative? x.name with
    | some d₀ =>
      rw [derivativeBy_of_some hfound] at hd
      cases hd
      exact ⟨rfl, hdeclared d hfound⟩
    | none =>
      rw [derivativeBy_of_none hfound] at hd
      obtain ⟨hdeclare, rfl⟩ := declareDerivative_eq_ok.1 hd
      obtain ⟨-, rfl⟩ := declareFirst_eq_ok.1 hdeclare
      exact ⟨rfl, none, rfl⟩
  obtain ⟨hquantity, value, rfl⟩ := hby
  obtain ⟨hbase, w, hw, rfl⟩ :=
    withValue_eq_ok.1 (assign_outcome_eq_ok.1 (Update.outcome_eq_ok.2 hassign))
  rw [Derivative.base_eq] at hbase
  refine ⟨value, w, hbase, hw, hquantity, ?_⟩
  rw [storeDerivative, PathMap.get?_insert, if_pos rfl]
  rfl

variable [Scalar α]

theorem exists_block {blocks : PathMap (Tensor α)} (h : v.assembledDerivatives = .ok blocks)
    {p : Path} {d : Derivative α 1} (hd : v.first.get? p = some d) (hdefined : d.isDefined = true)
    (htarget : d.target = v.quantity) :
    ∃ r, d.assembled = .ok r ∧ blocks.get? p = some r := by
  unfold assembledDerivatives at h
  obtain ⟨ys, hys, hblocks⟩ := Update.except_bind_eq_ok.1 h
  cases hblocks
  have hnodup : ((v.first.entries.filter fun e => e.2.isDefined).map (·.1)).Nodup :=
    (List.filter_sublist.map _).nodup v.first.nodup_keys
  have hmem : (p, d) ∈ v.first.entries.filter fun e => e.2.isDefined :=
    List.mem_filter.2 ⟨PathMap.get?_eq_some.1 hd, hdefined⟩
  have hentry : ∀ {e : Path × Derivative α 1} {entry : Path × Tensor α}, (do
      let full ← e.2.dense
      return (e.1, ← full.assemble [v.quantity.middle, e.2.argument.middle]
        [v.quantity.base, e.2.argument.base])) = Except.ok entry → entry.1 = e.1 ∧
          e.2.dense >>= (fun full => full.assemble [v.quantity.middle, e.2.argument.middle]
            [v.quantity.base, e.2.argument.base]) = .ok entry.2 := by
    intro e entry he
    obtain ⟨full, hfull, hrest⟩ := Update.except_bind_eq_ok.1 he
    obtain ⟨r, hr, hpair⟩ := Update.except_bind_eq_ok.1 hrest
    cases hpair
    exact ⟨rfl, Update.except_bind_eq_ok.2 ⟨full, hfull, hr⟩⟩
  obtain ⟨r, hr, hget⟩ := PathMap.exists_get?_of_mapM hnodup (fun he => (hentry he).1) hys hmem
  refine ⟨r, ?_, hget⟩
  unfold Derivative.assembled
  rw [htarget]
  exact (hentry hr).2

/-- The block that a variable returns for an argument whose derivative was assigned. It is the
Jacobian where both are extrinsic over one shape, where both are intrinsic, and where the argument
alone is intrinsic and the value spans all dimensions of the target. Where a value that leaves out
dimensions of an extrinsic target is assembled nevertheless, either the argument has one index,
and the dimensions of the value are read from the last one of the target on, or the value has the
dimensions of the argument only, and is put on a diagonal that is not there. -/
theorem assembledDerivatives_assign (hfin : ∀ x : α, Scalar.isFinite x = true)
    (hdeclared : ∀ d, v.derivative? x.name = some d → ∃ value, d = denseBy v.quantity x value)
    (hassign : (changeDerivative x (Derivative.assign t)).outcome v = (.ok (), v'))
    (htier : (extrinsicPart t v.quantity x).expandsTo
      (v.quantity.middle.take (v.quantity.middle.length - v.quantity.intrinsic)) = true)
    {blocks : PathMap (Tensor α)} (hblocks : v'.assembledDerivatives = .ok blocks) :
    ∃ r s, blocks.get? x.name = some r ∧
      t.PaddedTo (v.quantity.intrinsic + x.intrinsic) s ∧ JacobianBlock v.quantity x s r := by
  obtain ⟨value, w, hbase, hw, hquantity, hstored⟩ := exists_stored_of_assign hdeclared hassign
  obtain ⟨r, hr, hget⟩ := exists_block hblocks hstored rfl hquantity.symm
  obtain ⟨s, hs, hblock⟩ := jacobianBlock_of_assembled hfin hbase hw htier hr
  exact ⟨r, s, hget, hs, hblock⟩

end Variable

/-- A variable of two items, with its derivative by a quantity of two intrinsic entries. -/
def itemsBy (t : Tensor ℚ) : Variable ℚ :=
  ((Variable.changeDerivative ⟨"x", [2], 1, []⟩ (Derivative.assign t)).outcome
    (.ofQuantity ⟨"y", [2], 0, []⟩)).2

def itemRows : Tensor ℚ := ⟨[], [2, 2], [], #[3, 1, 4, 2], rfl⟩

def sharedRow : Tensor ℚ := ⟨[], [2], [], #[5, 7], by decide⟩

theorem itemsBy_itemRows : ∃ blocks r s, (itemsBy itemRows).assembledDerivatives = .ok blocks ∧
    blocks.get? "x" = some r ∧ itemRows.PaddedTo 1 s ∧
      s.BlockOf ⟨"y", [2], 0, []⟩ ⟨"x", [2], 1, []⟩ (fun p q => some (s.middle.project (p ++ q)))
        r := by
  obtain ⟨blocks, hblocks, -⟩ := Update.exists_of_toOption_map
    (x := (itemsBy itemRows).assembledDerivatives) (f := fun _ => ()) (c := ()) (by decide +kernel)
  have hassign : (Variable.changeDerivative ⟨"x", [2], 1, []⟩ (Derivative.assign itemRows)).outcome
      (.ofQuantity ⟨"y", [2], 0, []⟩) = (.ok (), itemsBy itemRows) :=
    Prod.ext (by decide +kernel) rfl
  obtain ⟨r, s, hr, hs, hblock⟩ := Variable.assembledDerivatives_assign (fun _ => rfl)
    (fun d hd => by cases hd) hassign (by decide +kernel) hblocks
  exact ⟨blocks, r, s, hblocks, hr, hs,
    hblock.independent rfl (.inr ⟨rfl, .inr (Tensor.View.middle_eq hs)⟩)⟩

/-- The derivative of the first item by the second entry is not returned. -/
theorem itemsBy_sharedRow : ∃ blocks r,
    (Variable.changeDerivative ⟨"x", [2], 1, []⟩ (Derivative.assign sharedRow)).outcome
        (.ofQuantity ⟨"y", [2], 0, []⟩) = (.ok (), itemsBy sharedRow) ∧
      (itemsBy sharedRow).assembledDerivatives = .ok blocks ∧ blocks.get? "x" = some r ∧
      ¬ sharedRow.BlockOf ⟨"y", [2], 0, []⟩ ⟨"x", [2], 1, []⟩
        (fun p q => some (sharedRow.middle.project (p ++ q))) r := by
  obtain ⟨blocks, hblocks, hentry⟩ := Update.exists_of_toOption_map
    (x := (itemsBy sharedRow).assembledDerivatives)
    (f := fun blocks => (blocks.get? "x").map (·.entry [0, 1])) (c := some 0) (by decide +kernel)
  obtain ⟨r, hr, hzero⟩ := Option.map_eq_some_iff.1 hentry
  refine ⟨blocks, r, Prod.ext (by decide +kernel) rfl, hblocks, hr, fun hblock => ?_⟩
  have hread : r.entry [0, 1] = sharedRow.entry [1] :=
    hblock.entry_eq (b := []) (p := [0]) (i := []) (q := [1]) (j := []) trivial
      ⟨by decide, trivial⟩ trivial ⟨by decide, trivial⟩ trivial
  have hseven : sharedRow.entry [1] = 7 := by decide +kernel
  rw [hzero, hseven] at hread
  norm_num at hread

end TieredCalculus
