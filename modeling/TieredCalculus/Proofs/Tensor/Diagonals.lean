import TieredCalculus.Proofs.Rational
import TieredCalculus.Proofs.Tensor.Contraction

/-! # Diagonals and sums along them

A sum over intermediate dimensions depends on the set of dimensions alone, however they are
listed. So a diagonal can be undone: of the terms summed over one copy of its block only the one
on the diagonal is not zero.
-/

namespace TieredCalculus.Tensor

variable {α : Type} [CommRing α]

/-! ## Sums -/

omit [CommRing α] in
theorem sumMiddle_congr [Zero α] [Add α] {dims others : List Nat}
    (h : ∀ d, d ∈ dims ↔ d ∈ others) (t : Tensor α) : t.sumMiddle dims = t.sumMiddle others := by
  unfold sumMiddle
  rw [Shape.distinct_congr h]

theorem sumMiddle_diagonal {t r : Tensor α} {outer block : Shape}
    (hm : t.middle = outer ++ block) (hrb : r.batch = t.batch)
    (hrm : r.middle = outer ++ (block ++ block)) (hrbase : r.base = t.base)
    (hcell : ∀ {b o p q k}, Shape.InBounds t.batch b → Shape.InBounds outer o →
      Shape.InBounds block p → Shape.InBounds block q → k < t.base.numel →
      r.cell b (o ++ (p ++ q)) k = if p = q then t.cell b (o ++ p) k else 0) :
    r.sumMiddle ((List.range block.length).map (· + t.middle.length)) = .ok t := by
  have hview := r.view_self
  have hsplit : outer ++ (block ++ block) = t.middle ++ (block ++ []) := by
    rw [hm, List.append_nil, List.append_assoc]
  rw [hrb, hrm, hrbase, hsplit] at hview
  obtain ⟨s, hs, vs⟩ := hview.sumMiddle
  rw [List.append_nil] at vs
  rw [hs, vs.unique (t.view_self.congr fun {b m k} hb hin hk => ?_)]
  have hlen := hin.length_eq
  rw [hm] at hin
  obtain ⟨o, p, rfl, ho, hp⟩ := Shape.exists_append_of_inBounds hin
  have hread : ∀ u, Shape.InBounds block u →
      r.cell b ((o ++ p).take t.middle.length ++ (u ++ (o ++ p).drop t.middle.length)) k =
        if p = u then t.cell b (o ++ p) k else 0 := by
    intro u hu
    rw [← hlen, List.take_length, List.drop_length, List.append_nil, List.append_assoc,
      hcell hb ho hp hu hk]
  rw [sumOver_eq_single hp fun u hu hne => ?_]
  · rw [hread p hp, if_pos rfl]
  · rw [hread u hu, if_neg (Ne.symm hne)]

/-! ## Diagonals -/

/-- The last `k` intermediate dimensions are placed on the diagonal of two copies of them: an
entry is that of the tensor where the multi-indices of the two copies agree, and zero elsewhere.
The sum over the last `k` dimensions, in whatever order they are listed, is the tensor again. -/
theorem diagonalize_embeds {t : Tensor α} {k : Nat} (hk : k ≤ t.middle.length) :
    ∃ outer block r, t.middle = outer ++ block ∧ block.length = k ∧ t.diagonalize k = .ok r ∧
      r.batch = t.batch ∧ r.middle = outer ++ (block ++ block) ∧ r.base = t.base ∧
      (∀ {b o p q e}, Shape.InBounds t.batch b → Shape.InBounds outer o →
        Shape.InBounds block p → Shape.InBounds block q → Shape.InBounds t.base e →
        r.entry (b ++ (o ++ (p ++ q)) ++ e) = if p = q then t.entry (b ++ (o ++ p) ++ e) else 0) ∧
      ∀ dims : List Nat, (∀ d, d ∈ dims ↔ r.middle.length - k ≤ d ∧ d < r.middle.length) →
        r.sumMiddle dims = .ok t := by
  obtain ⟨outer, block, hm, rfl⟩ : ∃ outer block, t.middle = outer ++ block ∧ block.length = k :=
    ⟨_, _, (List.take_append_drop (t.middle.length - k) t.middle).symm, by
      rw [List.length_drop]
      omega⟩
  obtain ⟨r, hr, hrb, hrm, hrbase, hcell⟩ := diagonalize_cell hm
  refine ⟨outer, block, r, hm, rfl, hr, hrb, hrm, hrbase, fun {b o p q e} hb ho hp hq he => ?_,
    fun dims hdims => ?_⟩
  · have hpq := Shape.inBounds_append ho (Shape.inBounds_append hp hq)
    have hop := Shape.inBounds_append ho hp
    rw [entry_eq_cell r e (hrb ▸ hb.length_eq) (hrm ▸ hpq.length_eq), hrbase,
      hcell hb ho hp hq (Shape.offset_lt he), entry_eq_cell t e hb.length_eq (hm ▸ hop.length_eq)]
  · rw [← sumMiddle_diagonal hm hrb hrm hrbase hcell]
    refine sumMiddle_congr (fun d => ?_) r
    rw [hdims, hrm, hm, List.mem_map]
    simp only [List.length_append, List.mem_range]
    constructor
    · intro h
      exact ⟨d - (outer.length + block.length), by omega, by omega⟩
    · rintro ⟨i, hi, rfl⟩
      omega

def itemSquares : Tensor ℚ := ⟨[2], [2, 2], [1], #[1, 2, 3, 4, 5, 6, 7, 8], rfl⟩

/-- The sum is asked for with the last of the two dimensions first, and with one of them twice. -/
theorem itemSquares_embeds : 2 ≤ itemSquares.middle.length ∧
    ∃ r, itemSquares.diagonalize 2 = .ok r ∧ r.middle = [2, 2, 2, 2] ∧
      r.entry [1, 0, 1, 0, 1, 0] = 6 ∧ r.entry [1, 0, 1, 1, 0, 0] = 0 ∧
      r.sumMiddle [3, 2, 3] = .ok itemSquares := by
  have hk : 2 ≤ itemSquares.middle.length := by decide
  obtain ⟨outer, block, r, hm, hlen, hr, -, hrm, -, hentry, hsum⟩ := diagonalize_embeds hk
  have hshape : ([] : Shape) ++ [2, 2] = outer ++ block := hm
  obtain ⟨rfl, rfl⟩ := List.append_inj' hshape hlen.symm
  refine ⟨hk, r, hr, hrm, ?_, ?_, hsum [3, 2, 3] fun d => ?_⟩
  · exact hentry (b := [1]) (o := []) (p := [0, 1]) (q := [0, 1]) (e := [0]) (by decide)
      (by decide) (by decide) (by decide) (by decide)
  · exact hentry (b := [1]) (o := []) (p := [0, 1]) (q := [1, 0]) (e := [0]) (by decide)
      (by decide) (by decide) (by decide) (by decide)
  · rw [hrm]
    simp only [List.mem_cons, List.not_mem_nil, or_false]
    change _ ↔ 2 ≤ d ∧ d < 4
    omega

end TieredCalculus.Tensor
