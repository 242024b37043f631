import Mathlib.Algebra.BigOperators.Group.List.Basic
import Mathlib.Algebra.Ring.Defs
import Mathlib.Data.List.Nodup
import Mathlib.Tactic.Ring
import TieredCalculus.Proofs.Shape.Dimensions
import TieredCalculus.Proofs.Tensor.Operands

/-! # Sums and products of tensors

Over a commutative ring the folds of the arithmetic are sums. The views of products, of sums
along a block of intermediate dimensions and of diagonals say which entries are added.
-/

namespace TieredCalculus.Tensor

/-! ## Folds as sums -/

theorem foldl_add_eq_sum {α β : Type} [AddMonoid α] (l : List β) (f : β → α) (a : α) :
    l.foldl (fun acc k => acc + f k) a = a + (l.map f).sum := by
  induction l generalizing a with
  | nil => simp
  | cons k l ih => rw [List.foldl_cons, ih, List.map_cons, List.sum_cons, add_assoc]

variable {α : Type} [CommRing α]

theorem sumUpTo_eq_sum (n : Nat) (f : Nat → α) : sumUpTo n f = ((List.range n).map f).sum := by
  unfold sumUpTo
  rw [foldl_add_eq_sum, zero_add]

theorem foldl_addScaled_eq [BEq α] [LawfulBEq α] {β : Type} (l : List β) (c x : β → α) (a : α) :
    l.foldl (fun acc p => addScaled acc (c p) (x p)) a = a + (l.map fun p => c p * x p).sum := by
  have hstep : (fun acc p => addScaled acc (c p) (x p)) = fun acc p => acc + c p * x p := by
    funext acc p
    unfold addScaled
    by_cases hc : c p = 0
    · rw [if_pos (beq_iff_eq.2 hc), hc, zero_mul, add_zero]
    · rw [if_neg (fun h => hc (beq_iff_eq.1 h))]
  rw [hstep, foldl_add_eq_sum]

/-! ## Products -/

section Matmul

variable [BEq α] {s t : Tensor α} {bs ms bt mt : Shape} {m k n : Nat}
  {f g : Index → Index → Nat → α}

theorem View.matmul_isOk (vs : s.View bs ms [m, k] f) (vt : t.View bt mt [k, n] g) {r : Tensor α}
    (h : s.matmul t = .ok r) :
    ∃ batch middle, Shape.broadcast bs bt = .ok batch ∧ Shape.broadcast ms mt = .ok middle := by
  obtain ⟨rfl, rfl, hs, -⟩ := vs
  obtain ⟨rfl, rfl, ht, -⟩ := vt
  unfold matmul at h
  rw [hs, ht] at h
  dsimp only at h
  rw [if_pos rfl] at h
  obtain ⟨batch, middle, ⟨hb, hm⟩, -⟩ := contract_eq_ok.1 h
  exact ⟨batch, middle, Shape.broadcastAll_pair _ _ ▸ hb, Shape.broadcastAll_pair _ _ ▸ hm⟩

theorem join_of_matmul {r : Tensor α} (h : s.matmul t = .ok r) : Join [s, t] r.batch r.middle := by
  unfold matmul at h
  split at h
  · split at h
    · obtain ⟨batch, middle, hjoin, rfl⟩ := contract_eq_ok.1 h
      exact hjoin
    · cases h
  · cases h

variable [LawfulBEq α]

/-- Place `q` of the product is the sum over the contracted place. -/
theorem View.matmul (vs : s.View bs ms [m, k] f) (vt : t.View bt mt [k, n] g)
    {batch middle : Shape} (hb : Shape.broadcast bs bt = .ok batch)
    (hm : Shape.broadcast ms mt = .ok middle) :
    ∃ r, s.matmul t = .ok r ∧ r.View batch middle [m, n] fun b w q =>
      ((List.range k).map fun p =>
        f (bs.project b) (ms.project w) (q / n * k + p) *
          g (bt.project b) (mt.project w) (p * n + q % n)).sum := by
  obtain ⟨rfl, rfl, hs, hf⟩ := vs
  obtain ⟨rfl, rfl, ht, hg⟩ := vt
  obtain ⟨hsb, htb, -⟩ := Shape.broadcast_expandsTo hb
  obtain ⟨hsm, htm, -⟩ := Shape.broadcast_expandsTo hm
  unfold Tensor.matmul
  rw [hs, ht]
  dsimp only
  rw [if_pos rfl]
  rw [← Shape.broadcastAll_pair] at hb hm
  have hjoin : Join [s, t] batch middle := ⟨hb, hm⟩
  refine contract_view hjoin fun {b w e} hib hiw hie => ?_
  match e, hie with
  | [i, j], hie =>
    obtain ⟨hi, hj, -⟩ := hie
    rw [foldl_addScaled_eq, zero_add]
    congr 1
    apply List.map_congr_left
    intro p hp
    have hpk := List.mem_range.1 hp
    have hplace : Shape.offset [m, n] [i, j] = i * n + j := by simp
    rw [hplace, (Shape.place_div_mod hj).1, (Shape.place_div_mod hj).2]
    change s.cellAt b w (s.base.offset [i, p]) * t.cellAt b w (t.base.offset [p, j]) = _
    have hsplace : s.base.offset [i, p] = i * k + p := by simp [hs]
    have htplace : t.base.offset [p, j] = p * n + j := by simp [ht]
    have hleft : s.base.offset [i, p] < Shape.numel [m, k] := by
      rw [hs]
      exact Shape.offset_lt ⟨hi, hpk, trivial⟩
    have hright : t.base.offset [p, j] < Shape.numel [k, n] := by
      rw [ht]
      exact Shape.offset_lt ⟨hpk, hj, trivial⟩
    rw [← hsplace, ← htplace]
    unfold cellAt
    rw [hf (Shape.project_inBounds hsb hib) (Shape.project_inBounds hsm hiw) hleft,
      hg (Shape.project_inBounds htb hib) (Shape.project_inBounds htm hiw) hright]

theorem View.matmul_congr {t' : Tensor α} {mt' : Shape} {g' : Index → Index → Nat → α}
    (vs : s.View bs ms [m, k] f) (vt : t.View bt mt [k, n] g) (vt' : t'.View bt mt' [k, n] g')
    (hmiddle : ∀ {middle}, Shape.broadcast ms mt = .ok middle ↔
      Shape.broadcast ms mt' = .ok middle)
    (hcell : ∀ {middle b w p}, Shape.broadcast ms mt = .ok middle → Shape.InBounds bt b →
      Shape.InBounds middle w → p < Shape.numel [k, n] →
      g b (mt.project w) p = g' b (mt'.project w) p) {r : Tensor α} :
    s.matmul t = .ok r ↔ s.matmul t' = .ok r := by
  have hsame : ∀ {batch middle}, Shape.broadcast bs bt = .ok batch →
      Shape.broadcast ms mt = .ok middle → ∃ c, s.matmul t = .ok c ∧ s.matmul t' = .ok c := by
    intro batch middle hb hm
    obtain ⟨c, hc, vc⟩ := vs.matmul vt hb hm
    obtain ⟨c', hc', vc'⟩ := vs.matmul vt' hb (hmiddle.1 hm)
    refine ⟨c, hc, ?_⟩
    rw [hc', vc'.unique (vc.congr fun {b w q} hib hiw hq => ?_)]
    congr 1
    apply List.map_congr_left
    intro p hp
    have hn : 0 < n := Nat.pos_of_ne_zero fun h => by
      simp [h] at hq
    have hplace : Shape.offset [k, n] [p, q % n] < Shape.numel [k, n] :=
      Shape.offset_lt ⟨List.mem_range.1 hp, Nat.mod_lt q hn, trivial⟩
    rw [hcell hm (Shape.project_inBounds (Shape.broadcast_expandsTo hb).2.1 hib) hiw
      (by simpa using hplace)]
  constructor
  · intro h
    obtain ⟨batch, middle, hb, hm⟩ := vs.matmul_isOk vt h
    obtain ⟨c, hc, hc'⟩ := hsame hb hm
    rw [hc', ← hc, h]
  · intro h
    obtain ⟨batch, middle, hb, hm⟩ := vs.matmul_isOk vt' h
    obtain ⟨c, hc, hc'⟩ := hsame hb (hmiddle.2 hm)
    rw [hc, ← hc', h]

end Matmul

/-! ## Sums along a block -/

section Sums

/-- The sum over all multi-indices of a shape. -/
def sumOver (s : Shape) (f : Index → α) : α := (s.indices.map f).sum

theorem sumOver_nil (f : Index → α) : sumOver [] f = f [] := by
  simp [sumOver, Shape.indices]

theorem sumOver_cons (d : Nat) (s : Shape) (f : Index → α) :
    sumOver (d :: s) f = ((List.range d).map fun i => sumOver s fun u => f (i :: u)).sum := by
  unfold sumOver
  rw [Shape.indices, List.map_flatMap, List.flatMap_def, List.sum_flatten, List.map_map]
  congr 1
  apply List.map_congr_left
  intro i _
  rw [Function.comp_apply, List.map_map]
  rfl

theorem sumOver_append (a b : Shape) (f : Index → α) :
    sumOver (a ++ b) f = sumOver a fun u => sumOver b fun v => f (u ++ v) := by
  induction a generalizing f with
  | nil => rw [List.nil_append, sumOver_nil]; rfl
  | cons d a ih =>
    rw [List.cons_append, sumOver_cons, sumOver_cons]
    congr 1
    apply List.map_congr_left
    intro i _
    exact ih _

theorem sumOver_congr {s : Shape} {f g : Index → α}
    (h : ∀ u, Shape.InBounds s u → f u = g u) : sumOver s f = sumOver s g := by
  unfold sumOver
  congr 1
  exact List.map_congr_left fun u hu => h u (Shape.mem_indices.1 hu)

theorem sum_range_numel (s : Shape) (f : Nat → α) :
    ((List.range s.numel).map f).sum = sumOver s fun u => f (s.offset u) := by
  rw [← Shape.map_offset_indices, List.map_map]
  rfl

theorem sumOver_eq_single {s : Shape} {f : Index → α} {v : Index} (hv : Shape.InBounds s v)
    (h : ∀ u, Shape.InBounds s u → u ≠ v → f u = 0) : sumOver s f = f v := by
  have hnodup : s.indices.Nodup := by
    apply List.Nodup.of_map s.offset
    rw [Shape.map_offset_indices]
    exact List.nodup_range
  obtain ⟨l, r, hsplit⟩ := List.append_of_mem (Shape.mem_indices.2 hv)
  have hzero : ∀ u, u ∈ l ++ r → f u = 0 := by
    intro u hu
    have hmem : u ∈ s.indices := by
      rw [hsplit]
      rcases List.mem_append.1 hu with hl | hr
      · exact List.mem_append_left _ hl
      · exact List.mem_append_right _ (List.mem_cons_of_mem _ hr)
    refine h u (Shape.mem_indices.1 hmem) fun huv => ?_
    rw [hsplit, List.nodup_middle, ← huv] at hnodup
    exact (List.nodup_cons.1 hnodup).1 hu
  have hl : (l.map f).sum = 0 := List.sum_eq_zero fun x hx => by
    obtain ⟨u, hu, rfl⟩ := List.mem_map.1 hx
    exact hzero u (List.mem_append_left _ hu)
  have hr : (r.map f).sum = 0 := List.sum_eq_zero fun x hx => by
    obtain ⟨u, hu, rfl⟩ := List.mem_map.1 hx
    exact hzero u (List.mem_append_right _ hu)
  unfold sumOver
  rw [hsplit, List.map_append, List.map_cons, List.sum_append, List.sum_cons, hl, hr, zero_add,
    add_zero]

variable {t : Tensor α} {batch pre post base : Shape} {f : Index → Index → Nat → α}

private theorem insertIdx_append_length (l r : Index) (i : Nat) :
    (l ++ r).insertIdx l.length i = l ++ i :: r := by
  induction l with
  | nil => rfl
  | cons x l ih => rw [List.cons_append, List.length_cons, List.insertIdx_succ_cons, ih]; rfl

theorem View.sumMiddleAxis {d : Nat} (v : t.View batch (pre ++ d :: post) base f) :
    (t.sumMiddleAxis pre.length).View batch (pre ++ post) base fun b m k =>
      ((List.range d).map fun i => f b (m.take pre.length ++ i :: m.drop pre.length) k).sum := by
  obtain ⟨rfl, hm, rfl, hcell⟩ := v
  have herase : t.middle.eraseIdx pre.length = pre ++ post := by
    rw [hm, List.eraseIdx_append_of_length_le (Nat.le_refl _), Nat.sub_self]
    rfl
  have hsize : t.middle.getD pre.length 0 = d := by
    rw [hm, List.getD_eq_getElem?_getD, List.getElem?_append_right (Nat.le_refl _), Nat.sub_self]
    rfl
  unfold Tensor.sumMiddleAxis
  rw [herase, hsize]
  refine view_tabulate _ fun {b w e} hb hw he => ?_
  obtain ⟨is, js, rfl, his, hjs⟩ := Shape.exists_append_of_inBounds hw
  rw [sumUpTo_eq_sum]
  congr 1
  apply List.map_congr_left
  intro i hi
  have hin : Shape.InBounds (pre ++ d :: post) (is ++ i :: js) :=
    Shape.inBounds_append his ⟨List.mem_range.1 hi, hjs⟩
  have hins : (b ++ (is ++ js) ++ e).insertIdx (t.batch.length + pre.length) i =
      b ++ (is ++ i :: js) ++ e := by
    have hplace : t.batch.length + pre.length = (b ++ is).length := by
      rw [List.length_append, hb.length_eq, his.length_eq]
    have hread : b ++ (is ++ js) ++ e = (b ++ is) ++ (js ++ e) := by
      simp only [List.append_assoc]
    rw [hplace, hread, insertIdx_append_length]
    simp only [List.append_assoc, List.cons_append]
  rw [hins, entry_eq_cell t e hb.length_eq (hm ▸ hin.length_eq), hcell hb hin (Shape.offset_lt he),
    ← his.length_eq, List.take_left, List.drop_left]

theorem View.foldr_sumMiddleAxis {block : Shape}
    (v : t.View batch (pre ++ (block ++ post)) base f) :
    (((List.range block.length).map (· + pre.length)).foldr
      (fun d acc => acc.sumMiddleAxis d) t).View batch (pre ++ post) base fun b m k =>
        sumOver block fun u => f b (m.take pre.length ++ (u ++ m.drop pre.length)) k := by
  induction block generalizing pre with
  | nil =>
    refine v.congr fun {b m k} _ _ _ => ?_
    rw [sumOver_nil, List.nil_append, List.take_append_drop]
  | cons d block ih =>
    have hdims : (List.range (d :: block).length).map (· + pre.length) =
        pre.length :: (List.range block.length).map (· + (pre ++ [d]).length) := by
      rw [List.length_cons, List.range_succ_eq_map, List.map_cons, List.map_map]
      congr 1
      · omega
      · apply List.map_congr_left
        intro i _
        simp only [Function.comp_apply, List.length_append, List.length_cons, List.length_nil]
        omega
    have hshape : pre ++ (d :: block ++ post) = (pre ++ [d]) ++ (block ++ post) := by
      simp only [List.append_assoc, List.cons_append, List.nil_append]
    rw [hshape] at v
    have hinner := ih v
    rw [show pre ++ [d] ++ post = pre ++ d :: post by simp] at hinner
    rw [hdims, List.foldr_cons]
    refine hinner.sumMiddleAxis.congr fun {b m k} _ hm _ => ?_
    obtain ⟨is, js, rfl, his, hjs⟩ := Shape.exists_append_of_inBounds hm
    rw [sumOver_cons]
    congr 1
    apply List.map_congr_left
    intro i _
    apply sumOver_congr
    intro u _
    have hlen : (pre ++ [d]).length = (is ++ [i]).length := by
      simp [his.length_eq]
    have hread : is ++ i :: js = (is ++ [i]) ++ js := by simp
    rw [hlen, ← his.length_eq, List.take_left, List.drop_left, hread, List.take_left,
      List.drop_left]
    simp only [List.append_assoc, List.cons_append, List.nil_append]

/-- Summing a block of intermediate dimensions sums over its multi-indices. -/
theorem View.sumMiddle {block : Shape} (v : t.View batch (pre ++ (block ++ post)) base f) :
    ∃ r, t.sumMiddle ((List.range block.length).map (· + pre.length)) = .ok r ∧
      r.View batch (pre ++ post) base fun b m k =>
        sumOver block fun u => f b (m.take pre.length ++ (u ++ m.drop pre.length)) k := by
  refine ⟨_, ?_, v.foldr_sumMiddleAxis⟩
  have hdistinct : Shape.distinct ((List.range block.length).map (· + pre.length)) =
      (List.range block.length).map (· + pre.length) := by
    refine Shape.distinct_eq_of_pairwise ?_ fun _ => .rfl
    rw [List.pairwise_map]
    exact List.pairwise_lt_range.imp fun h => by omega
  have hbound : ¬ ((List.range block.length).map (· + pre.length)).any
      (· ≥ t.middle.length) = true := by
    rw [List.any_eq_true]
    rintro ⟨d, hd, hle⟩
    obtain ⟨i, hi, rfl⟩ := List.mem_map.1 hd
    have hlt := List.mem_range.1 hi
    rw [decide_eq_true_eq, v.middle_eq, List.length_append, List.length_append] at hle
    omega
  unfold Tensor.sumMiddle
  rw [hdistinct, if_neg hbound]

end Sums

/-! ## Diagonals -/

omit [CommRing α] in
theorem diagonalize_cell [Zero α] {t : Tensor α} {outer block : Shape}
    (hm : t.middle = outer ++ block) :
    ∃ r, t.diagonalize block.length = .ok r ∧ r.batch = t.batch ∧
      r.middle = outer ++ (block ++ block) ∧ r.base = t.base ∧
      ∀ {b o p q k}, Shape.InBounds t.batch b → Shape.InBounds outer o →
        Shape.InBounds block p → Shape.InBounds block q → k < t.base.numel →
        r.cell b (o ++ (p ++ q)) k = if p = q then t.cell b (o ++ p) k else 0 := by
  have hcount : t.middle.length - block.length = outer.length := by
    rw [hm, List.length_append, Nat.add_sub_cancel]
  have hle : ¬ block.length > t.middle.length := by
    rw [hm, List.length_append]
    omega
  unfold diagonalize
  rw [if_neg hle, hcount]
  dsimp only
  rw [hm, List.take_left, List.drop_left]
  unfold ofValues
  rw [dif_pos (by rw [Array.size_ofFn])]
  refine ⟨_, rfl, rfl, rfl, rfl, fun {b o p q k} hb ho hp hq hk => ?_⟩
  have hplace : ((t.batch.offset b * Shape.numel (outer ++ (block ++ block)) +
      Shape.offset (outer ++ (block ++ block)) (o ++ (p ++ q))) * t.base.numel + k) =
      (((t.batch.offset b * outer.numel + outer.offset o) * block.numel + block.offset p) *
        block.numel + block.offset q) * t.base.numel + k := by
    rw [Shape.offset_append ho.length_eq, Shape.offset_append hp.length_eq, Shape.numel_append,
      Shape.numel_append]
    ring
  have hlt := Shape.place_lt hb (Shape.inBounds_append ho (Shape.inBounds_append hp hq)) hk
  have hvalue : t.cell b (o ++ p) k = t.data[((t.batch.offset b * outer.numel +
      outer.offset o) * block.numel + block.offset p) * t.base.numel + k]?.getD 0 := by
    rw [cell, hm, Shape.numel_append, Shape.offset_append ho.length_eq]
    congr 3
    ring
  rw [hvalue]
  unfold cell
  dsimp only
  rw [hplace] at hlt ⊢
  rw [Array.getElem?_ofFn, dif_pos hlt, Option.getD_some]
  dsimp only
  obtain ⟨hdiv, hmod⟩ := Shape.place_div_mod
    (a := ((t.batch.offset b * outer.numel + outer.offset o) * block.numel + block.offset p) *
      block.numel + block.offset q) hk
  obtain ⟨hdiv', hmod'⟩ := Shape.place_div_mod
    (a := (t.batch.offset b * outer.numel + outer.offset o) * block.numel + block.offset p)
    (Shape.offset_lt hq)
  obtain ⟨hdiv'', hmod''⟩ := Shape.place_div_mod
    (a := t.batch.offset b * outer.numel + outer.offset o) (Shape.offset_lt hp)
  rw [hmod, hdiv, hdiv', hmod', hdiv'', hmod'']
  by_cases hpq : p = q
  · rw [if_pos hpq, if_pos (by rw [hpq])]
  · rw [if_neg hpq, if_neg fun h => hpq (Shape.offset_injective hp hq h)]

end TieredCalculus.Tensor
