import Mathlib.Data.List.Forall2
import TieredCalculus.Shape.Broadcast

/-! # Reading a shape through a larger one

A shape that expands to a larger one is read at a multi-index of the larger one by dropping
the coordinates that it lacks and clamping those of its unit dimensions. The places that are
read this way stay within the bounds, and reading in two steps is reading at once.
-/

namespace TieredCalculus.Shape

/-! ## Appended shapes -/

theorem offset_append {s t : Shape} {is js : Index} (h : is.length = s.length) :
    offset (s ++ t) (is ++ js) = offset s is * numel t + offset t js := by
  induction s generalizing is with
  | nil =>
    rw [List.length_nil, List.length_eq_zero_iff] at h
    simp [h]
  | cons d s ih =>
    cases is with
    | nil => simp at h
    | cons i is =>
      have hlen : is.length = s.length := Nat.succ.inj h
      simp only [List.cons_append, offset_cons, numel_append, ih hlen]
      rw [Nat.add_mul, Nat.mul_assoc, Nat.add_assoc]

theorem inBounds_append_iff {s t : Shape} {is js : Index} (h : is.length = s.length) :
    InBounds (s ++ t) (is ++ js) ↔ InBounds s is ∧ InBounds t js := by
  refine ⟨fun hin => ?_, fun hin => inBounds_append hin.1 hin.2⟩
  induction s generalizing is with
  | nil =>
    rw [List.length_nil, List.length_eq_zero_iff] at h
    subst h
    exact ⟨trivial, hin⟩
  | cons d s ih =>
    cases is with
    | nil => simp at h
    | cons i is =>
      obtain ⟨hi, hrest⟩ := hin
      have hboth := ih (Nat.succ.inj h) hrest
      exact ⟨⟨hi, hboth.1⟩, hboth.2⟩

theorem exists_append_of_inBounds {s t : Shape} {idx : Index} (h : InBounds (s ++ t) idx) :
    ∃ is js, idx = is ++ js ∧ InBounds s is ∧ InBounds t js := by
  have hlen : (idx.take s.length).length = s.length := by
    have := h.length_eq
    simp at this
    simp
    omega
  have hsplit : InBounds (s ++ t) (idx.take s.length ++ idx.drop s.length) := by
    rw [List.take_append_drop]
    exact h
  obtain ⟨hi, hj⟩ := (inBounds_append_iff hlen).1 hsplit
  exact ⟨_, _, (List.take_append_drop _ _).symm, hi, hj⟩

theorem numel_pos_of_inBounds {s : Shape} {idx : Index} (h : InBounds s idx) : 0 < numel s :=
  Nat.lt_of_le_of_lt (Nat.zero_le _) (offset_lt h)

theorem place_div_mod {a n q : Nat} (hq : q < n) :
    (a * n + q) / n = a ∧ (a * n + q) % n = q := by
  rw [Nat.add_comm, Nat.add_mul_div_right _ _ (by omega), Nat.add_mul_mod_self_right,
    Nat.div_eq_of_lt hq, Nat.mod_eq_of_lt hq, Nat.zero_add]
  exact ⟨rfl, rfl⟩

theorem place_lt {s t u : Shape} {is js : Index} {k : Nat} (hi : InBounds s is)
    (hj : InBounds t js) (hk : k < numel u) :
    (offset s is * numel t + offset t js) * numel u + k < numel (s ++ t ++ u) := by
  obtain ⟨ks, hks, rfl⟩ := exists_offset_eq hk
  have hij := inBounds_append hi hj
  have hlt := offset_lt (inBounds_append hij hks)
  rwa [offset_append hij.length_eq, offset_append hi.length_eq] at hlt

theorem map_offset_indices (s : Shape) : (indices s).map (offset s) = List.range (numel s) := by
  apply List.ext_getElem
  · simp
  · intro k hk hk'
    rw [List.length_range] at hk'
    obtain ⟨is, hin, hoff⟩ := exists_offset_eq hk'
    have hget := getElem?_indices_offset hin
    rw [hoff] at hget
    have hval := (List.getElem?_eq_some_iff.1 hget).2
    rw [List.getElem_map, hval, List.getElem_range, hoff]

/-! ## Clamped coordinates -/

theorem length_clamp {s : Shape} {is : Index} (h : is.length = s.length) :
    (clamp s is).length = s.length := by
  simp [clamp, h]

theorem clamp_append {s t : Shape} {is js : Index} (h : is.length = s.length) :
    clamp (s ++ t) (is ++ js) = clamp s is ++ clamp t js :=
  List.zipWith_append h.symm

theorem clamp_of_inBounds {s : Shape} {is : Index} (h : InBounds s is) : clamp s is = is := by
  induction s generalizing is with
  | nil =>
    cases is with
    | nil => rfl
    | cons i is => exact h.elim
  | cons d s ih =>
    cases is with
    | nil => rfl
    | cons i is =>
      obtain ⟨hi, hrest⟩ := h
      change (if d = 1 then 0 else i) :: clamp s is = i :: is
      rw [ih hrest]
      by_cases hd : d = 1
      · rw [if_pos hd, show i = 0 by omega]
      · rw [if_neg hd]

theorem offset_clamp_units (n : Nat) (is : Index) :
    offset (List.replicate n 1) (clamp (List.replicate n 1) is) = 0 := by
  induction n generalizing is with
  | zero => exact offset_nil _
  | succ n ih =>
    cases is with
    | nil => rfl
    | cons i is =>
      change 0 * _ + offset (List.replicate n 1) (clamp (List.replicate n 1) is) = 0
      rw [ih]
      omega

theorem offset_units {n : Nat} {is : Index} (h : InBounds (List.replicate n 1) is) :
    offset (List.replicate n 1) is = 0 := by
  have hlt := offset_lt h
  rw [numel_replicate_one] at hlt
  omega

/-! ## Projection -/

/-- The multi-index of a shape that is read at a multi-index of a shape it expands to. -/
def project (s : Shape) (idx : Index) : Index := clamp s (idx.drop (idx.length - s.length))

theorem project_append_left {s : Shape} {is js : Index} (h : js.length = s.length) :
    project s (is ++ js) = clamp s js := by
  unfold project
  rw [List.length_append, h, Nat.add_sub_cancel, List.drop_left]

private theorem exists_append_of_le {idx : Index} {n : Nat} (h : n ≤ idx.length) :
    ∃ is js, idx = is ++ js ∧ js.length = n := by
  refine ⟨_, _, (List.take_append_drop (idx.length - n) idx).symm, ?_⟩
  rw [List.length_drop]
  omega

theorem project_of_length {s : Shape} {idx : Index} (h : idx.length = s.length) :
    project s idx = clamp s idx := by
  simp [project, h]

theorem project_of_inBounds {s : Shape} {idx : Index} (h : InBounds s idx) :
    project s idx = idx := by
  rw [project_of_length h.length_eq, clamp_of_inBounds h]

theorem length_project {s : Shape} {idx : Index} (h : s.length ≤ idx.length) :
    (project s idx).length = s.length := by
  apply length_clamp
  rw [List.length_drop]
  omega

theorem project_append {s t : Shape} {is js : Index} (h : js.length = t.length)
    (hs : s.length ≤ is.length) : project (s ++ t) (is ++ js) = project s is ++ clamp t js := by
  have hdrop : (is ++ js).drop ((is ++ js).length - (s ++ t).length) =
      is.drop (is.length - s.length) ++ js := by
    have hcount : (is ++ js).length - (s ++ t).length = is.length - s.length := by
      rw [List.length_append, List.length_append, h]
      omega
    rw [hcount, List.drop_append_of_le_length (Nat.sub_le _ _)]
  unfold project
  rw [hdrop, clamp_append]
  rw [List.length_drop]
  omega

/-- In a shape padded on the left a clamped multi-index has the place of its projection. -/
theorem offset_clamp_padLeft {s : Shape} {n : Nat} {idx : Index} (hn : idx.length = n)
    (hs : s.length ≤ n) :
    offset (padLeft n s) (clamp (padLeft n s) idx) = offset s (project s idx) := by
  subst hn
  have hlen : (idx.take (idx.length - s.length)).length =
      (List.replicate (idx.length - s.length) 1).length := by
    rw [List.length_take, List.length_replicate]
    omega
  have hsplit : clamp (padLeft idx.length s) idx =
      clamp (List.replicate (idx.length - s.length) 1) (idx.take (idx.length - s.length)) ++
        project s idx := by
    unfold project padLeft
    rw [← clamp_append hlen, List.take_append_drop]
  rw [hsplit, padLeft, offset_append (length_clamp hlen), offset_clamp_units]
  omega

/-! ## Expansion -/

abbrev Stretches : Shape → Shape → Prop := List.Forall₂ fun a b => a = b ∨ a = 1

theorem Stretches.of_all {s t : Shape} (hlen : s.length = t.length)
    (h : ((s.zip t).all fun d => d.1 = d.2 || d.1 = 1) = true) : Stretches s t := by
  induction s generalizing t with
  | nil =>
    cases t with
    | nil => exact .nil
    | cons b t => simp at hlen
  | cons a s ih =>
    cases t with
    | nil => simp at hlen
    | cons b t =>
      simp only [List.zip_cons_cons, List.all_cons, Bool.and_eq_true, Bool.or_eq_true,
        decide_eq_true_eq] at h
      exact .cons h.1 (ih (Nat.succ.inj hlen) h.2)

theorem Stretches.all {s t : Shape} (h : Stretches s t) :
    ((s.zip t).all fun d => d.1 = d.2 || d.1 = 1) = true := by
  induction h with
  | nil => rfl
  | cons hab _ ih =>
    simp only [List.zip_cons_cons, List.all_cons, ih, Bool.and_true, Bool.or_eq_true,
      decide_eq_true_eq]
    exact hab

theorem Stretches.refl (s : Shape) : Stretches s s := List.forall₂_same.2 fun _ _ => .inl rfl

theorem Stretches.trans {s t w : Shape} (hst : Stretches s t) (htw : Stretches t w) :
    Stretches s w := by
  induction hst generalizing w with
  | nil => exact htw
  | cons hab _ ih =>
    cases htw with
    | cons hbc hrest =>
      refine .cons ?_ (ih hrest)
      omega

theorem stretches_append_iff {s t a b : Shape} (h : s.length = t.length) :
    Stretches (s ++ a) (t ++ b) ↔ Stretches s t ∧ Stretches a b := by
  induction s generalizing t with
  | nil =>
    cases t with
    | nil => exact ⟨fun hab => ⟨.nil, hab⟩, fun hab => hab.2⟩
    | cons y t => simp at h
  | cons x s ih =>
    cases t with
    | nil => simp at h
    | cons y t =>
      rw [List.cons_append, List.cons_append, Stretches, List.forall₂_cons, List.forall₂_cons,
        and_assoc]
      exact and_congr_right fun _ => ih (Nat.succ.inj h)

theorem expandsTo_iff {s t : Shape} :
    s.expandsTo t = true ↔ ∃ lead rest, t = lead ++ rest ∧ Stretches s rest := by
  unfold expandsTo
  rw [Bool.and_eq_true, decide_eq_true_eq]
  constructor
  · rintro ⟨hlen, hall⟩
    refine ⟨_, _, (List.take_append_drop (t.length - s.length) t).symm, .of_all ?_ hall⟩
    rw [List.length_drop]
    omega
  · rintro ⟨lead, rest, rfl, h⟩
    have hlen := h.length_eq
    have hdrop : (lead ++ rest).length - s.length = lead.length := by
      rw [List.length_append]
      omega
    rw [hdrop, List.drop_left]
    refine ⟨?_, h.all⟩
    rw [List.length_append]
    omega

theorem expandsTo_length {s t : Shape} (h : s.expandsTo t = true) : s.length ≤ t.length := by
  unfold expandsTo at h
  rw [Bool.and_eq_true, decide_eq_true_eq] at h
  exact h.1

theorem expandsTo_iff_stretches {s t : Shape} (h : s.length = t.length) :
    s.expandsTo t = true ↔ Stretches s t := by
  refine ⟨fun hst => ?_, fun hst => expandsTo_iff.2 ⟨[], t, rfl, hst⟩⟩
  obtain ⟨lead, rest, rfl, hs⟩ := expandsTo_iff.1 hst
  have hlen := hs.length_eq
  rw [List.length_append] at h
  rw [List.length_eq_zero_iff.1 (show lead.length = 0 by omega)]
  exact hs

theorem expandsTo_refl (s : Shape) : s.expandsTo s = true :=
  expandsTo_iff.2 ⟨[], s, rfl, .refl s⟩

theorem nil_expandsTo (s : Shape) : expandsTo [] s = true :=
  expandsTo_iff.2 ⟨s, [], (List.append_nil s).symm, .nil⟩

theorem expandsTo_trans {s t w : Shape} (hst : s.expandsTo t = true)
    (htw : t.expandsTo w = true) : s.expandsTo w = true := by
  obtain ⟨lead, rest, rfl, hs⟩ := expandsTo_iff.1 hst
  obtain ⟨lead', rest', rfl, ht⟩ := expandsTo_iff.1 htw
  have hlen := ht.length_eq
  rw [List.length_append] at hlen
  have hparts : Stretches rest (rest'.drop lead.length) := by
    have := List.forall₂_drop lead.length ht
    rwa [List.drop_left] at this
  refine expandsTo_iff.2 ⟨lead' ++ rest'.take lead.length, rest'.drop lead.length, ?_,
    hs.trans hparts⟩
  rw [List.append_assoc, List.take_append_drop]

theorem stretches_clamp_inBounds {s t : Shape} {is : Index} (h : Stretches s t)
    (hi : InBounds t is) : InBounds s (clamp s is) := by
  induction h generalizing is with
  | nil =>
    cases is with
    | nil => trivial
    | cons i is => exact hi.elim
  | @cons a b s t hab _ ih =>
    cases is with
    | nil => exact hi.elim
    | cons i is =>
      obtain ⟨hib, hrest⟩ := hi
      refine ⟨?_, ih hrest⟩
      change (if a = 1 then 0 else i) < a
      by_cases ha : a = 1
      · rw [if_pos ha]
        omega
      · rw [if_neg ha]
        omega

theorem clamp_clamp {s t : Shape} {is : Index} (h : Stretches s t) :
    clamp s (clamp t is) = clamp s is := by
  induction h generalizing is with
  | nil => rfl
  | @cons a b s t hab _ ih =>
    cases is with
    | nil => rfl
    | cons i is =>
      change (if a = 1 then 0 else if b = 1 then 0 else i) :: clamp s (clamp t is) =
        (if a = 1 then 0 else i) :: clamp s is
      rw [ih]
      congr 1
      by_cases ha : a = 1
      · rw [if_pos ha, if_pos ha]
      · rw [if_neg ha, if_neg ha, if_neg (by omega)]

theorem project_inBounds {s t : Shape} {idx : Index} (h : s.expandsTo t = true)
    (hi : InBounds t idx) : InBounds s (project s idx) := by
  obtain ⟨lead, rest, rfl, hs⟩ := expandsTo_iff.1 h
  obtain ⟨is, js, rfl, hl, hr⟩ := exists_append_of_inBounds hi
  rw [project_append_left (hr.length_eq.trans hs.length_eq.symm)]
  exact stretches_clamp_inBounds hs hr

theorem project_project {s t : Shape} {idx : Index} (h : s.expandsTo t = true)
    (hi : t.length ≤ idx.length) : project s (project t idx) = project s idx := by
  obtain ⟨lead, rest, rfl, hs⟩ := expandsTo_iff.1 h
  have hlen := hs.length_eq
  obtain ⟨is, tail, rfl, htail⟩ := exists_append_of_le hi
  rw [List.length_append] at htail
  obtain ⟨js, ks, rfl, hks⟩ := exists_append_of_le (show rest.length ≤ tail.length by omega)
  have hjs : js.length = lead.length := by
    rw [List.length_append] at htail
    omega
  have hall : (js ++ ks).length = (lead ++ rest).length := by
    rw [List.length_append, List.length_append, hjs, hks]
  have hclamp : (clamp rest ks).length = s.length := (length_clamp hks).trans hlen.symm
  rw [project_append_left hall, clamp_append hjs, project_append_left hclamp, clamp_clamp hs,
    ← List.append_assoc, project_append_left (hks.trans hlen.symm)]

theorem padLeft_expandsTo {s t : Shape} (hs : s.length ≤ t.length) :
    (padLeft t.length s).expandsTo t = s.expandsTo t := by
  have hpad : (padLeft t.length s).length = t.length := by
    rw [padLeft, List.length_append, List.length_replicate]
    omega
  rw [Bool.eq_iff_iff, expandsTo_iff_stretches hpad]
  constructor
  · intro h
    have hparts := List.forall₂_drop (t.length - s.length) h
    rw [padLeft, List.drop_left' (List.length_replicate ..)] at hparts
    exact expandsTo_iff.2 ⟨_, _, (List.take_append_drop _ t).symm, hparts⟩
  · intro h
    obtain ⟨lead, rest, rfl, hr⟩ := expandsTo_iff.1 h
    have hcount : (lead ++ rest).length - s.length = lead.length := by
      have := hr.length_eq
      rw [List.length_append]
      omega
    rw [padLeft, hcount]
    refine List.rel_append ?_ hr
    clear hs hpad hcount h
    induction lead with
    | nil => exact .nil
    | cons d lead ih => exact .cons (.inr rfl) ih

end TieredCalculus.Shape
