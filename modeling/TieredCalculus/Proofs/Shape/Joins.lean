import TieredCalculus.Proofs.Shape.Projection

/-! # Joins of shapes

The common shape of two shapes is one that both expand to. It is found tier by tier: trailing
blocks of one rank are joined on their own, and unit dimensions leave the other shape as it
is.
-/

namespace TieredCalculus.Shape

/-! ## Shapes of one rank -/

theorem joinSizes?_stretches {a b c : Shape} (h : joinSizes? a b = some c) :
    Stretches a c ∧ Stretches b c := by
  induction a generalizing b c with
  | nil =>
    cases b with
    | nil =>
      cases h
      exact ⟨.nil, .nil⟩
    | cons y b => cases h
  | cons x a ih =>
    cases b with
    | nil => cases h
    | cons y b =>
      unfold joinSizes? at h
      split at h
      · obtain ⟨c, hc, rfl⟩ := Option.map_eq_some_iff.1 h
        obtain ⟨ha, hb⟩ := ih hc
        exact ⟨.cons (.inl rfl) ha, .cons (by omega) hb⟩
      · split at h
        · obtain ⟨c, hc, rfl⟩ := Option.map_eq_some_iff.1 h
          obtain ⟨ha, hb⟩ := ih hc
          exact ⟨.cons (by omega) ha, .cons (.inl rfl) hb⟩
        · split at h
          · obtain ⟨c, hc, rfl⟩ := Option.map_eq_some_iff.1 h
            obtain ⟨ha, hb⟩ := ih hc
            exact ⟨.cons (.inl rfl) ha, .cons (by omega) hb⟩
          · cases h

theorem joinSizes?_of_stretches {a b : Shape} (h : Stretches a b) : joinSizes? a b = some b := by
  induction h with
  | nil => rfl
  | @cons x y a b hxy _ ih =>
    unfold joinSizes?
    rw [ih]
    by_cases he : x = y
    · rw [if_pos he, he]
      rfl
    · rw [if_neg he, if_pos (by omega)]
      rfl

theorem joinSizes?_cons (x y : Nat) (a b : Shape) :
    joinSizes? (x :: a) (y :: b) =
      if x = y then (joinSizes? a b).map (x :: ·)
      else if x = 1 then (joinSizes? a b).map (y :: ·)
      else if y = 1 then (joinSizes? a b).map (x :: ·)
      else none := rfl

theorem joinSizes?_comm (a b : Shape) : joinSizes? a b = joinSizes? b a := by
  induction a generalizing b with
  | nil => cases b <;> rfl
  | cons x a ih =>
    cases b with
    | nil => rfl
    | cons y b =>
      rw [joinSizes?_cons, joinSizes?_cons, ih b]
      by_cases he : x = y
      · rw [if_pos he, if_pos he.symm, he]
      · have he' : ¬y = x := fun h => he h.symm
        rw [if_neg he, if_neg he']
        by_cases hx : x = 1
        · have hy : ¬y = 1 := fun hy => he (hx.trans hy.symm)
          rw [if_pos hx, if_neg hy, if_pos hx]
        · by_cases hy : y = 1
          · rw [if_neg hx, if_pos hy, if_pos hy]
          · rw [if_neg hx, if_neg hy, if_neg hy, if_neg hx]

theorem stretches_units (a : Shape) : Stretches (List.replicate a.length 1) a := by
  induction a with
  | nil => exact .nil
  | cons x a ih => exact .cons (.inr rfl) ih

theorem joinSizes?_comm_units (a : Shape) :
    joinSizes? a (List.replicate a.length 1) = some a := by
  rw [joinSizes?_comm]
  exact joinSizes?_of_stretches (stretches_units a)

theorem joinSizes?_append {a b a' b' : Shape} (h : a.length = b.length) :
    joinSizes? (a ++ a') (b ++ b') =
      (joinSizes? a b).bind fun c => (joinSizes? a' b').map (c ++ ·) := by
  induction a generalizing b with
  | nil =>
    cases b with
    | nil =>
      change joinSizes? a' b' = (joinSizes? a' b').map ([] ++ ·)
      cases joinSizes? a' b' <;> rfl
    | cons y b => simp at h
  | cons x a ih =>
    cases b with
    | nil => simp at h
    | cons y b =>
      rw [List.cons_append, List.cons_append, joinSizes?_cons, joinSizes?_cons,
        ih (Nat.succ.inj h)]
      have hmap : ∀ z,
          ((joinSizes? a b).bind fun c => (joinSizes? a' b').map (c ++ ·)).map (z :: ·) =
            ((joinSizes? a b).map (z :: ·)).bind fun c => (joinSizes? a' b').map (c ++ ·) := by
        intro z
        cases joinSizes? a b with
        | none => rfl
        | some c => cases joinSizes? a' b' <;> rfl
      rw [hmap, hmap]
      split
      · rfl
      · split
        · rfl
        · split <;> rfl

/-! ## Shapes aligned on the right -/

theorem length_padLeft {n : Nat} {s : Shape} (h : s.length ≤ n) : (padLeft n s).length = n := by
  rw [padLeft, List.length_append, List.length_replicate]
  omega

theorem padLeft_of_length {n : Nat} {s : Shape} (h : n ≤ s.length) : padLeft n s = s := by
  rw [padLeft, Nat.sub_eq_zero_of_le h]
  rfl

theorem padLeft_append {n : Nat} {s t : Shape} :
    padLeft (n + t.length) (s ++ t) = padLeft n s ++ t := by
  unfold padLeft
  rw [List.length_append, Nat.add_sub_add_right, List.append_assoc]

theorem broadcast_eq_ok {a b c : Shape} :
    broadcast a b = .ok c ↔
      joinSizes? (padLeft (max a.length b.length) a) (padLeft (max a.length b.length) b) =
        some c := by
  unfold broadcast
  dsimp only
  split
  · next s hs => simp [hs]
  · next hs => simp [hs]

theorem broadcast_expandsTo {a b c : Shape} (h : broadcast a b = .ok c) :
    a.expandsTo c = true ∧ b.expandsTo c = true ∧ c.length = max a.length b.length := by
  obtain ⟨ha, hb⟩ := joinSizes?_stretches (broadcast_eq_ok.1 h)
  have hc := ha.length_eq
  rw [length_padLeft (Nat.le_max_left ..)] at hc
  refine ⟨?_, ?_, hc.symm⟩
  · rw [← padLeft_expandsTo (by omega), ← hc]
    exact expandsTo_iff.2 ⟨[], c, rfl, ha⟩
  · rw [← padLeft_expandsTo (by omega), ← hc]
    exact expandsTo_iff.2 ⟨[], c, rfl, hb⟩

theorem broadcast_of_expandsTo {a b : Shape} (h : a.expandsTo b = true) :
    broadcast a b = .ok b := by
  have hlen := expandsTo_length h
  rw [broadcast_eq_ok, Nat.max_eq_right hlen, padLeft_of_length (Nat.le_refl b.length)]
  rw [← padLeft_expandsTo hlen] at h
  exact joinSizes?_of_stretches ((expandsTo_iff_stretches (length_padLeft hlen)).1 h)

theorem broadcast_comm {a b c : Shape} (h : broadcast a b = .ok c) : broadcast b a = .ok c := by
  rw [broadcast_eq_ok, joinSizes?_comm] at h
  rw [broadcast_eq_ok, Nat.max_comm]
  exact h

theorem broadcast_nil_left (a : Shape) : broadcast [] a = .ok a :=
  broadcast_of_expandsTo (nil_expandsTo a)

/-- Trailing blocks of one rank that have a join are joined on their own. -/
theorem broadcast_append {a b a' b' c' : Shape} (hlen : a'.length = b'.length)
    (hjoin : joinSizes? a' b' = some c') {c : Shape} :
    broadcast (a ++ a') (b ++ b') = .ok c ↔ ∃ d, broadcast a b = .ok d ∧ c = d ++ c' := by
  have hrank : max (a ++ a').length (b ++ b').length = max a.length b.length + a'.length := by
    rw [List.length_append, List.length_append, hlen, Nat.add_max_add_right]
  rw [broadcast_eq_ok, hrank, padLeft_append, hlen, padLeft_append, joinSizes?_append
    ((length_padLeft (Nat.le_max_left ..)).trans (length_padLeft (Nat.le_max_right ..)).symm),
    hjoin]
  simp only [broadcast_eq_ok, Option.map_some, Option.bind_eq_some_iff, Option.some.injEq]
  constructor
  · rintro ⟨d, hd, rfl⟩
    exact ⟨d, hd, rfl⟩
  · rintro ⟨d, hd, rfl⟩
    exact ⟨d, hd, rfl⟩

theorem broadcast_append_stretches {a b a' b' c : Shape} (h : Stretches b' a') :
    broadcast (a ++ a') (b ++ b') = .ok c ↔ ∃ d, broadcast a b = .ok d ∧ c = d ++ a' :=
  broadcast_append h.length_eq.symm (by rw [joinSizes?_comm]; exact joinSizes?_of_stretches h)

/-! ## Several shapes -/

theorem broadcastAll_pair (a b : Shape) : broadcastAll [a, b] = broadcast a b := by
  simp only [broadcastAll, List.foldlM_cons, List.foldlM_nil, broadcast_nil_left, bind,
    Except.bind]
  cases broadcast a b <;> rfl

private theorem foldlM_broadcast_expandsTo {shapes : List Shape} {a c : Shape}
    (h : shapes.foldlM broadcast a = .ok c) :
    a.expandsTo c = true ∧ ∀ s ∈ shapes, s.expandsTo c = true := by
  induction shapes generalizing a with
  | nil =>
    cases h
    exact ⟨expandsTo_refl _, fun s hs => by cases hs⟩
  | cons s shapes ih =>
    rw [List.foldlM_cons] at h
    cases hb : broadcast a s with
    | error e =>
      rw [hb] at h
      cases h
    | ok b =>
      rw [hb] at h
      obtain ⟨hbc, hrest⟩ := ih h
      obtain ⟨ha, hs, -⟩ := broadcast_expandsTo hb
      refine ⟨expandsTo_trans ha hbc, fun s' hs' => ?_⟩
      rcases List.mem_cons.1 hs' with rfl | hs'
      · exact expandsTo_trans hs hbc
      · exact hrest s' hs'

theorem broadcastAll_expandsTo {shapes : List Shape} {c : Shape}
    (h : broadcastAll shapes = .ok c) : ∀ s ∈ shapes, s.expandsTo c = true :=
  (foldlM_broadcast_expandsTo h).2

/-! ## Expansions without new entries -/

private theorem stretches_numel {s t : Shape} (h : Stretches s t) (ht : 0 < numel t) :
    numel s ≤ numel t ∧ (numel s = numel t → s = t) := by
  induction h with
  | nil => exact ⟨Nat.le_refl _, fun _ => rfl⟩
  | @cons a b s t hab _ ih =>
    rw [numel_cons] at ht
    have hb : 0 < b := Nat.pos_of_mul_pos_right ht
    obtain ⟨hle, heq⟩ := ih (Nat.pos_of_mul_pos_left ht)
    rw [numel_cons, numel_cons]
    by_cases h : a = b
    · subst h
      refine ⟨Nat.mul_le_mul_left a hle, fun hn => ?_⟩
      rw [heq (Nat.eq_of_mul_eq_mul_left hb hn)]
    · obtain rfl : a = 1 := by omega
      have hgrow : numel t ≤ b * numel t := Nat.le_mul_of_pos_left _ hb
      refine ⟨by omega, fun hn => ?_⟩
      have hone : b * numel t = 1 * numel t := by omega
      exact absurd (Nat.eq_of_mul_eq_mul_right (Nat.pos_of_mul_pos_left ht) hone).symm h

theorem numel_pos_of_expandsTo {s t : Shape} (h : s.expandsTo t = true) (ht : 0 < numel t) :
    0 < numel s := by
  obtain ⟨is, his, -⟩ := exists_offset_eq ht
  exact numel_pos_of_inBounds (project_inBounds h his)

theorem numel_le_of_expandsTo {s t : Shape} (h : s.expandsTo t = true) (ht : 0 < numel t) :
    numel s ≤ numel t := by
  obtain ⟨lead, rest, rfl, hs⟩ := expandsTo_iff.1 h
  rw [numel_append] at ht ⊢
  obtain ⟨hle, -⟩ := stretches_numel hs (Nat.pos_of_mul_pos_left ht)
  have hgrow : numel rest ≤ numel lead * numel rest :=
    Nat.le_mul_of_pos_left _ (Nat.pos_of_mul_pos_right ht)
  omega

theorem offset_project_of_numel_eq {s t : Shape} {idx : Index} (h : s.expandsTo t = true)
    (hn : numel s = numel t) (hi : InBounds t idx) : offset s (project s idx) = offset t idx := by
  obtain ⟨lead, rest, rfl, hs⟩ := expandsTo_iff.1 h
  obtain ⟨is, js, rfl, hl, hr⟩ := exists_append_of_inBounds hi
  obtain ⟨hle, heq⟩ := stretches_numel hs (numel_pos_of_inBounds hr)
  rw [numel_append] at hn
  have hlead : numel rest ≤ numel lead * numel rest :=
    Nat.le_mul_of_pos_left _ (numel_pos_of_inBounds hl)
  obtain rfl := heq (by omega)
  have hone : numel lead * numel s = 1 * numel s := by omega
  have hlt := offset_lt hl
  rw [Nat.eq_of_mul_eq_mul_right (numel_pos_of_inBounds hr) hone] at hlt
  rw [project_append_left hr.length_eq, clamp_of_inBounds hr, offset_append hl.length_eq]
  rw [show offset lead is = 0 by omega]
  omega

end TieredCalculus.Shape
