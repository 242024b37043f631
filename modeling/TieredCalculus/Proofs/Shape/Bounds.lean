import TieredCalculus.Proofs.Shape.Joins

/-! # The least common expansion of shapes

Expansion orders the shapes, the scalar shape being the least. The common shape of a list of
shapes is the least one that all of them expand to, and there is one as soon as they have any
common expansion. Which shapes have a common one therefore does not depend on how the list is
ordered or cut into groups.
-/

namespace TieredCalculus.Shape

/-! ## Two shapes -/

theorem stretches_antisymm {a b : Shape} (hab : Stretches a b) (hba : Stretches b a) : a = b := by
  induction hab with
  | nil => rfl
  | @cons x y a b hxy _ ih =>
    cases hba with
    | cons hyx hrest => rw [ih hrest, show x = y by omega]

theorem expandsTo_antisymm {a b : Shape} (hab : a.expandsTo b = true)
    (hba : b.expandsTo a = true) : a = b := by
  have hlen := Nat.le_antisymm (expandsTo_length hab) (expandsTo_length hba)
  exact stretches_antisymm ((expandsTo_iff_stretches hlen).1 hab)
    ((expandsTo_iff_stretches hlen.symm).1 hba)

theorem joinSizes?_of_bound {a b d : Shape} (ha : Stretches a d) (hb : Stretches b d) :
    ∃ c, joinSizes? a b = some c ∧ Stretches c d := by
  induction ha generalizing b with
  | nil =>
    cases hb
    exact ⟨[], rfl, .nil⟩
  | @cons x z a d hxz _ ih =>
    cases hb with
    | @cons y _ b _ hyz hb =>
      obtain ⟨c, hc, hcd⟩ := ih hb
      rw [joinSizes?_cons, hc]
      by_cases hxy : x = y
      · exact ⟨x :: c, if_pos hxy, .cons hxz hcd⟩
      · rw [if_neg hxy]
        by_cases hx : x = 1
        · exact ⟨y :: c, if_pos hx, .cons hyz hcd⟩
        · rw [if_neg hx, if_pos (by omega)]
          exact ⟨x :: c, rfl, .cons hxz hcd⟩

theorem expandsTo_drop {a d : Shape} {n : Nat} (ha : a.length ≤ n) (hd : n ≤ d.length) :
    a.expandsTo (d.drop (d.length - n)) = a.expandsTo d := by
  rw [Bool.eq_iff_iff, expandsTo_iff, expandsTo_iff]
  constructor
  · rintro ⟨lead, rest, hsplit, hrest⟩
    refine ⟨d.take (d.length - n) ++ lead, rest, ?_, hrest⟩
    rw [List.append_assoc, ← hsplit, List.take_append_drop]
  · rintro ⟨lead, rest, rfl, hrest⟩
    have hlen := hrest.length_eq
    refine ⟨lead.drop ((lead ++ rest).length - n), rest, ?_, hrest⟩
    rw [List.drop_append_of_le_length]
    rw [List.length_append] at hd ⊢
    omega

/-- Two shapes with a common expansion broadcast, to a shape that expands to it as well. -/
theorem broadcast_of_bound {a b d : Shape} (ha : a.expandsTo d = true)
    (hb : b.expandsTo d = true) : ∃ c, broadcast a b = .ok c ∧ c.expandsTo d = true := by
  have hla := expandsTo_length ha
  have hlb := expandsTo_length hb
  have hle : max a.length b.length ≤ d.length := by omega
  have hlen : (d.drop (d.length - max a.length b.length)).length = max a.length b.length := by
    rw [List.length_drop]
    omega
  rw [← expandsTo_drop (Nat.le_max_left ..) hle, ← padLeft_expandsTo (by omega), hlen,
    expandsTo_iff_stretches (by rw [hlen, length_padLeft (Nat.le_max_left ..)])] at ha
  rw [← expandsTo_drop (Nat.le_max_right ..) hle, ← padLeft_expandsTo (by omega), hlen,
    expandsTo_iff_stretches (by rw [hlen, length_padLeft (Nat.le_max_right ..)])] at hb
  obtain ⟨c, hc, hcd⟩ := joinSizes?_of_bound ha hb
  exact ⟨c, broadcast_eq_ok.2 hc,
    expandsTo_iff.2 ⟨_, _, (List.take_append_drop _ d).symm, hcd⟩⟩

theorem broadcast_least {a b c d : Shape} (h : broadcast a b = .ok c)
    (ha : a.expandsTo d = true) (hb : b.expandsTo d = true) : c.expandsTo d = true := by
  obtain ⟨c', hc', hcd⟩ := broadcast_of_bound ha hb
  rw [h] at hc'
  cases hc'
  exact hcd

/-! ## Several shapes -/

/-- All shapes of the list expand to `c`, which expands to every other such shape. -/
structure IsJoin (shapes : List Shape) (c : Shape) : Prop where
  bound : ∀ s ∈ shapes, s.expandsTo c = true
  least : ∀ {d : Shape}, (∀ s ∈ shapes, s.expandsTo d = true) → c.expandsTo d = true

theorem IsJoin.unique {shapes : List Shape} {c d : Shape} (hc : IsJoin shapes c)
    (hd : IsJoin shapes d) : c = d :=
  expandsTo_antisymm (hc.least hd.bound) (hd.least hc.bound)

theorem IsJoin.forall_expandsTo_iff {shapes : List Shape} {c d : Shape} (h : IsJoin shapes c) :
    (∀ s ∈ shapes, s.expandsTo d = true) ↔ c.expandsTo d = true :=
  ⟨h.least, fun hcd s hs => expandsTo_trans (h.bound s hs) hcd⟩

theorem isJoin_of_forall_eq {shapes : List Shape} {c : Shape} (hne : shapes ≠ [])
    (h : ∀ s ∈ shapes, s = c) : IsJoin shapes c := by
  refine ⟨fun s hs => h s hs ▸ expandsTo_refl s, fun {d} hd => ?_⟩
  obtain ⟨s, hs⟩ := List.exists_mem_of_ne_nil shapes hne
  rw [← h s hs]
  exact hd s hs

theorem isJoin_congr {shapes others : List Shape} {c : Shape}
    (h : ∀ d : Shape, (∀ s ∈ shapes, s.expandsTo d = true) ↔ ∀ s ∈ others, s.expandsTo d = true) :
    IsJoin shapes c ↔ IsJoin others c :=
  ⟨fun hc => ⟨(h c).1 hc.bound, fun {d} hd => hc.least ((h d).2 hd)⟩,
    fun hc => ⟨(h c).2 hc.bound, fun {d} hd => hc.least ((h d).1 hd)⟩⟩

private theorem foldlM_broadcast_of_bound {shapes : List Shape} {a d : Shape}
    (ha : a.expandsTo d = true) (h : ∀ s ∈ shapes, s.expandsTo d = true) :
    ∃ c, shapes.foldlM broadcast a = .ok c ∧ c.expandsTo d = true := by
  induction shapes generalizing a with
  | nil => exact ⟨a, rfl, ha⟩
  | cons s shapes ih =>
    obtain ⟨b, hb, hbd⟩ := broadcast_of_bound ha (h s List.mem_cons_self)
    rw [List.foldlM_cons, hb]
    exact ih hbd fun s' hs' => h s' (List.mem_cons_of_mem s hs')

theorem broadcastAll_of_bound {shapes : List Shape} {d : Shape}
    (h : ∀ s ∈ shapes, s.expandsTo d = true) :
    ∃ c, broadcastAll shapes = .ok c ∧ c.expandsTo d = true :=
  foldlM_broadcast_of_bound (nil_expandsTo d) h

/-- The common shape of a list is the least common expansion. -/
theorem broadcastAll_eq_ok {shapes : List Shape} {c : Shape} :
    broadcastAll shapes = .ok c ↔ IsJoin shapes c := by
  have hjoin : ∀ {c : Shape}, broadcastAll shapes = .ok c → IsJoin shapes c := by
    intro c h
    refine ⟨broadcastAll_expandsTo h, fun {d} hd => ?_⟩
    obtain ⟨c', hc', hcd⟩ := broadcastAll_of_bound hd
    rw [h] at hc'
    cases hc'
    exact hcd
  refine ⟨hjoin, fun h => ?_⟩
  obtain ⟨c', hc', -⟩ := broadcastAll_of_bound h.bound
  rw [hc', (hjoin hc').unique h]

theorem broadcastAll_of_mem {shapes : List Shape} {c : Shape} (hc : c ∈ shapes)
    (h : ∀ s ∈ shapes, s.expandsTo c = true) : broadcastAll shapes = .ok c :=
  broadcastAll_eq_ok.2 ⟨h, fun hd => hd c hc⟩

theorem broadcastAll_append {shapes others : List Shape} {c d : Shape}
    (h : broadcastAll shapes = .ok d) :
    broadcastAll (shapes ++ others) = .ok c ↔ broadcastAll (d :: others) = .ok c := by
  rw [broadcastAll_eq_ok, broadcastAll_eq_ok]
  refine isJoin_congr fun e => ?_
  rw [List.forall_mem_append, List.forall_mem_cons, (broadcastAll_eq_ok.1 h).forall_expandsTo_iff]

theorem exists_of_broadcastAll_append {shapes others : List Shape} {c : Shape}
    (h : broadcastAll (shapes ++ others) = .ok c) : ∃ d, broadcastAll shapes = .ok d := by
  have hbound := (List.forall_mem_append.1 (broadcastAll_eq_ok.1 h).bound).1
  obtain ⟨d, hd, -⟩ := broadcastAll_of_bound hbound
  exact ⟨d, hd⟩

theorem broadcastAll_perm {shapes others : List Shape} (h : shapes.Perm others) {c : Shape} :
    broadcastAll shapes = .ok c ↔ broadcastAll others = .ok c := by
  rw [broadcastAll_eq_ok, broadcastAll_eq_ok]
  refine isJoin_congr fun d => ?_
  simp only [h.mem_iff]

/-! ## Shapes of one rank -/

private theorem foldl_max_le_iff {ranks : List Nat} {a n : Nat} :
    ranks.foldl max a ≤ n ↔ a ≤ n ∧ ∀ r ∈ ranks, r ≤ n := by
  induction ranks generalizing a with
  | nil => simp
  | cons r ranks ih => rw [List.foldl_cons, ih, List.forall_mem_cons, Nat.max_le, and_assoc]

/-- The largest rank of a list of shapes. -/
def maxRank (shapes : List Shape) : Nat := (shapes.map List.length).foldl max 0

theorem maxRank_le_iff {shapes : List Shape} {n : Nat} :
    maxRank shapes ≤ n ↔ ∀ s ∈ shapes, s.length ≤ n := by
  rw [maxRank, foldl_max_le_iff, List.forall_mem_map, and_iff_right (Nat.zero_le n)]

theorem length_le_maxRank {shapes : List Shape} {s : Shape} (hs : s ∈ shapes) :
    s.length ≤ maxRank shapes :=
  maxRank_le_iff.1 (Nat.le_refl _) s hs

theorem length_of_broadcastAll {shapes : List Shape} {c : Shape}
    (h : broadcastAll shapes = .ok c) : c.length = maxRank shapes := by
  have hfold : ∀ {a : Shape}, shapes.foldlM broadcast a = .ok c →
      c.length = (shapes.map List.length).foldl max a.length := by
    clear h
    induction shapes with
    | nil =>
      intro a h
      cases h
      rfl
    | cons s shapes ih =>
      intro a h
      rw [List.foldlM_cons] at h
      cases hb : broadcast a s with
      | error e =>
        rw [hb] at h
        cases h
      | ok b =>
        rw [hb] at h
        rw [ih h, (broadcast_expandsTo hb).2.2]
        rfl
  exact hfold h

theorem padLeft_expandsTo_of_le {s d : Shape} {n : Nat} (hs : s.length ≤ n) (hd : n ≤ d.length) :
    (padLeft n s).expandsTo d = s.expandsTo d := by
  have hlen : (d.drop (d.length - n)).length = n := by
    rw [List.length_drop]
    omega
  rw [← expandsTo_drop (Nat.le_of_eq (length_padLeft hs)) hd, ← expandsTo_drop hs hd]
  have hpad := padLeft_expandsTo (t := d.drop (d.length - n)) (hlen.symm ▸ hs)
  rw [hlen] at hpad
  exact hpad

theorem broadcastAll_padLeft {shapes : List Shape} {c : Shape} :
    broadcastAll (shapes.map (padLeft (maxRank shapes))) = .ok c ↔
      broadcastAll shapes = .ok c := by
  rw [broadcastAll_eq_ok, broadcastAll_eq_ok]
  refine isJoin_congr fun d => ?_
  rw [List.forall_mem_map]
  by_cases hd : maxRank shapes ≤ d.length
  · refine forall₂_congr fun s hs => ?_
    rw [padLeft_expandsTo_of_le (length_le_maxRank hs) hd]
  · constructor
    · intro h
      refine absurd (maxRank_le_iff.2 fun s hs => ?_) hd
      have hle := expandsTo_length (h s hs)
      rw [length_padLeft (length_le_maxRank hs)] at hle
      exact Nat.le_trans (length_le_maxRank hs) hle
    · intro h
      exact absurd (maxRank_le_iff.2 fun s hs => expandsTo_length (h s hs)) hd

end TieredCalculus.Shape
