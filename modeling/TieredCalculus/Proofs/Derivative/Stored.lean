import TieredCalculus.Derivative.Basic
import TieredCalculus.Proofs.Tensor.Contraction

/-! # Stored values of a first derivative

A value that has been assigned ends in the intrinsic block of its form: the intrinsic shapes
of target and argument where it is dense, that of the target where it is diagonal. Its dense
form is zero off the diagonal.
-/

namespace TieredCalculus.Derivative

variable {α : Type}

/-! ## Declarations -/

theorem arguments_eq (d : Derivative α 1) : d.arguments.toList = [d.argument] := by
  obtain ⟨m, y, ⟨⟨l⟩, hl⟩, v⟩ := d
  match l, hl with
  | [x], _ => rfl

theorem total_eq (d : Derivative α 1) : d.total = d.target.intrinsic + d.argument.intrinsic := by
  simp [total, totalIntrinsic, arguments_eq]

theorem denseShape_eq (d : Derivative α 1) :
    d.denseShape = d.target.intrinsicShape ++ d.argument.intrinsicShape := by
  simp [denseShape, arguments_eq]

theorem base_eq (d : Derivative α 1) : d.base = d.target.base ++ d.argument.base := by
  simp [base, arguments_eq]

theorem checkDeclaration_eq_ok_iff {m : Nat} {y : Quantity} {qs : List Quantity} :
    checkDeclaration m y qs = .ok () ↔ (∀ q ∈ y :: qs, q.intrinsic ≤ q.middle.length) ∧
      (m ≤ y.intrinsic ∨ m = totalIntrinsic y qs) := by
  unfold checkDeclaration
  cases hfind : (y :: qs).find? fun q => q.intrinsic > q.middle.length with
  | some q =>
    have hq := List.find?_some hfind
    have hmem := List.mem_of_find?_eq_some hfind
    refine ⟨fun h => (nomatch h), fun h => ?_⟩
    have hle := h.1 q hmem
    simp only [decide_eq_true_eq] at hq
    omega
  | none =>
    have hranks : ∀ q ∈ y :: qs, q.intrinsic ≤ q.middle.length :=
      fun q hq => by simpa using List.find?_eq_none.1 hfind q hq
    rw [and_iff_right hranks]
    by_cases hm : m ≤ y.intrinsic
    · simp [hm, Nat.not_lt.2]
    · by_cases htotal : m = totalIntrinsic y qs
      · simp [htotal]
      · simp [htotal, hm, Nat.lt_of_not_le]

theorem checkDeclaration_eq_ok {m : Nat} {y x : Quantity} :
    checkDeclaration m y [x] = .ok () ↔ y.intrinsic ≤ y.middle.length ∧
      x.intrinsic ≤ x.middle.length ∧ (m ≤ y.intrinsic ∨ m = y.intrinsic + x.intrinsic) := by
  rw [checkDeclaration_eq_ok_iff]
  simp [totalIntrinsic, and_assoc]

theorem declare_eq_ok {n m : Nat} {y : Quantity} {xs : Vector Quantity n} {d : Derivative α n} :
    declare m y xs = .ok d ↔
      checkDeclaration m y xs.toList = .ok () ∧ d = ⟨m, y, xs, none⟩ := by
  unfold declare
  dsimp only
  cases checkDeclaration m y xs.toList with
  | ok u => simp [eq_comm]
  | error f => simp

theorem declareFirst_eq_ok {m : Nat} {y x : Quantity} {d : Derivative α 1} :
    declareFirst m y x = .ok d ↔
      checkDeclaration m y [x] = .ok () ∧ d = ⟨m, y, #v[x], none⟩ :=
  declare_eq_ok

theorem length_intrinsicShape {q : Quantity} (h : q.intrinsic ≤ q.middle.length) :
    q.intrinsicShape.length = q.intrinsic := by
  unfold Quantity.intrinsicShape
  rw [List.length_drop]
  omega

/-! ## Shapes of values -/

/-- The intrinsic block of a stored value: that of the dense form where the count is the total,
and that of the target otherwise. -/
def storedBlock {n : Nat} (d : Derivative α n) : Shape :=
  if d.intrinsic = d.total then d.denseShape else d.target.intrinsicShape

/-- A value of the shape that the declaration and the count ask for. -/
structure Shaped {n : Nat} (d : Derivative α n) (t : Tensor α) : Prop where
  count : d.intrinsic ≤ d.target.intrinsic ∨ d.intrinsic = d.total
  base_eq : t.base = d.base
  middle_eq : ∃ tier, t.middle = tier ++ d.storedBlock

def Ranked {n : Nat} (d : Derivative α n) : Prop :=
  ∀ q ∈ d.target :: d.arguments.toList, q.intrinsic ≤ q.middle.length

theorem length_flatMap_intrinsicShape {qs : List Quantity}
    (h : ∀ q ∈ qs, q.intrinsic ≤ q.middle.length) :
    (qs.flatMap (·.intrinsicShape)).length = Shape.total (qs.map (·.intrinsic)) := by
  induction qs with
  | nil => rfl
  | cons q qs ih =>
    rw [List.forall_mem_cons] at h
    rw [List.flatMap_cons, List.length_append, List.map_cons, Shape.total_cons,
      length_intrinsicShape h.1, ih h.2]

theorem Ranked.length_denseShape {n : Nat} {d : Derivative α n} (h : d.Ranked) :
    d.denseShape.length = d.total := by
  obtain ⟨htarget, harguments⟩ := List.forall_mem_cons.1 h
  rw [denseShape, List.length_append, length_intrinsicShape htarget,
    length_flatMap_intrinsicShape harguments, total, totalIntrinsic]

theorem Ranked.denseShape_eq_target {n : Nat} {d : Derivative α n} (h : d.Ranked)
    (htotal : d.total ≤ d.target.intrinsic) : d.denseShape = d.target.intrinsicShape := by
  obtain ⟨htarget, -⟩ := List.forall_mem_cons.1 h
  have hlength := h.length_denseShape
  rw [denseShape, List.length_append, length_intrinsicShape htarget] at hlength
  have hnil : d.arguments.toList.flatMap (·.intrinsicShape) = [] :=
    List.length_eq_zero_iff.1 (by omega)
  rw [denseShape, hnil, List.append_nil]

/-! ## Assigned values -/

/-- The derivative is what assigning a value to a declared derivative has left behind. -/
def Assigned [Zero α] (d : Derivative α 1) : Prop :=
  ∃ d₀ t, checkDeclaration d₀.intrinsic d₀.target d₀.arguments.toList = .ok () ∧
    (assign t).outcome d₀ = (.ok (), d)

/-- The stored count is that of a dense block, or that of a diagonal block whose two shapes
agree. -/
def InForm (d : Derivative α 1) : Prop :=
  d.intrinsic = d.total ∨
    d.intrinsic = d.target.intrinsic ∧ d.target.intrinsicShape = d.argument.intrinsicShape

def extrinsicShape (d : Derivative α 1) : Shape :=
  (d.middle?.getD []).take ((d.middle?.getD []).length - d.intrinsic)

def block (d : Derivative α 1) : Shape :=
  if d.isDiagonal then d.target.intrinsicShape
  else d.target.intrinsicShape ++ d.argument.intrinsicShape

theorem withValue_eq_ok [Zero α] {n : Nat} {d d' : Derivative α n} {t : Tensor α} :
    d.withValue t = .ok d' ↔
      t.base = d.base ∧ ∃ t', d.expandIntrinsic t = .ok t' ∧ d' = { d with value := some t' } := by
  unfold withValue checkBase
  constructor
  · intro h
    obtain ⟨_, hbase, h₁⟩ := Update.except_bind_eq_ok.1 h
    obtain ⟨t', ht, h₂⟩ := Update.except_bind_eq_ok.1 h₁
    cases h₂
    by_cases hb : t.base = d.base
    · exact ⟨hb, t', ht, rfl⟩
    · rw [if_neg hb] at hbase
      cases hbase
  · rintro ⟨hb, t', ht, rfl⟩
    exact Update.except_bind_eq_ok.2 ⟨(), if_pos hb, Update.except_bind_eq_ok.2 ⟨t', ht, rfl⟩⟩

theorem assign_outcome_eq_ok [Zero α] {n : Nat} {d d' : Derivative α n} {t : Tensor α} :
    (assign t).outcome d = (.ok (), d') ↔ d.withValue t = .ok d' := by
  rw [Update.outcome_eq_ok]
  unfold assign
  constructor
  · intro h
    obtain ⟨_, _, hget, h₁⟩ := Update.bind_eq_ok.1 h
    cases hget
    obtain ⟨_, _, hlift, h₂⟩ := Update.bind_eq_ok.1 h₁
    cases h₂
    exact (Update.lift_eq_ok.1 hlift).1
  · intro h
    exact Update.bind_eq_ok.2 ⟨d, d, rfl, Update.bind_eq_ok.2
      ⟨d', d, Update.lift_eq_ok.2 ⟨h, rfl⟩, rfl⟩⟩

private theorem insertMiddleUnits_tiers {t r : Tensor α} {q n : Nat}
    (h : t.insertMiddleUnits q n = .ok r) :
    r.base = t.base ∧ r.middle = t.middle.insertUnits q n := by
  unfold Tensor.insertMiddleUnits at h
  split at h
  · cases h
  · cases h
    exact ⟨rfl, rfl⟩

private theorem expandMiddle_tiers [Zero α] {t r : Tensor α} {middle : Shape}
    (h : t.expandMiddle middle = .ok r) : r.base = t.base ∧ r.middle = middle := by
  unfold Tensor.expandMiddle Tensor.expandLeading at h
  dsimp only at h
  split at h
  · cases h
  · split at h
    · cases h
      exact ⟨rfl, rfl⟩
    · cases h

/-- What the check of the intrinsic block keeps ends in a dense block or in the intrinsic
shape of the target. -/
theorem expandIntrinsic_eq_ok [Zero α] {n : Nat} {d : Derivative α n} {t t' : Tensor α}
    (h : d.expandIntrinsic t = .ok t') :
    t'.base = t.base ∧ ∃ tier,
      (t'.middle = tier ++ d.denseShape ∧ d.intrinsic = d.denseShape.length) ∨
        (t'.middle = tier ++ d.target.intrinsicShape ∧
          d.intrinsic ≤ d.target.intrinsicShape.length) := by
  unfold expandIntrinsic at h
  obtain ⟨t₁, ht₁, h₁⟩ := Update.except_bind_eq_ok.1 h
  have hpad : t₁.base = t.base ∧ d.intrinsic ≤ t₁.middle.length := by
    unfold padIntrinsic at ht₁
    split at ht₁
    · obtain ⟨hbase, hmiddle⟩ := insertMiddleUnits_tiers ht₁
      refine ⟨hbase, ?_⟩
      simp only [hmiddle, Shape.insertUnits, List.length_append, List.length_replicate,
        List.length_take, List.length_drop]
      omega
    · cases ht₁
      exact ⟨rfl, by omega⟩
  obtain ⟨hbase, hlen⟩ := hpad
  have hblock : (t₁.middle.drop (t₁.middle.length - d.intrinsic)).length = d.intrinsic := by
    rw [List.length_drop]
    omega
  dsimp only at h₁
  split at h₁
  · next hdense =>
    cases h₁
    refine ⟨hbase, t'.middle.take (t'.middle.length - d.intrinsic), .inl ⟨?_, ?_⟩⟩
    · rw [← hdense, List.take_append_drop]
    · rw [← hdense, hblock]
  · split at h₁
    · next hown =>
      obtain ⟨t₂, ht₂, h₂⟩ := Update.except_bind_eq_ok.1 h₁
      obtain ⟨hbase₂, hmiddle₂⟩ := expandMiddle_tiers h₂
      refine ⟨hbase₂.trans ((insertMiddleUnits_tiers ht₂).1.trans hbase), _, .inr ⟨hmiddle₂, ?_⟩⟩
      have hle := Shape.expandsTo_length hown
      omega
    · cases h₁

/-- The value ends in the block of the derivative's form, for any count that the declaration
allows. -/
structure Keeps (d : Derivative α 1) (t : Tensor α) (tier : Shape) : Prop where
  value_eq : d.value = some t
  base_eq : t.base = d.target.base ++ d.argument.base
  middle_eq : t.middle = tier ++ d.block
  target_length : d.target.intrinsicShape.length = d.target.intrinsic
  argument_length : d.argument.intrinsicShape.length = d.argument.intrinsic
  count_le : d.isDiagonal = true → d.intrinsic ≤ d.target.intrinsic
  count_eq : ¬d.isDiagonal = true → d.intrinsic = d.target.intrinsic + d.argument.intrinsic

theorem isDiagonal_iff (d : Derivative α 1) :
    d.isDiagonal = true ↔ d.intrinsic < d.target.intrinsic + d.argument.intrinsic := by
  unfold isDiagonal
  rw [decide_eq_true_eq, total_eq]

theorem Ranked.shaped_of_expandIntrinsic [Zero α] {n : Nat} {d : Derivative α n} {t w : Tensor α}
    (h : d.Ranked) (hbase : t.base = d.base) (hw : d.expandIntrinsic t = .ok w) : d.Shaped w := by
  obtain ⟨htarget, -⟩ := List.forall_mem_cons.1 h
  obtain ⟨hkept, tier, hmiddle⟩ := expandIntrinsic_eq_ok hw
  rw [h.length_denseShape, length_intrinsicShape htarget] at hmiddle
  rcases hmiddle with ⟨hdense, hcount⟩ | ⟨hown, hcount⟩
  · refine ⟨.inr hcount, hkept.trans hbase, tier, ?_⟩
    rw [storedBlock, if_pos hcount, hdense]
  · refine ⟨.inl hcount, hkept.trans hbase, tier, ?_⟩
    by_cases htotal : d.intrinsic = d.total
    · rw [storedBlock, if_pos htotal, h.denseShape_eq_target (by omega), hown]
    · rw [storedBlock, if_neg htotal, hown]

theorem Shaped.exists_keeps {d : Derivative α 1} {t : Tensor α} (h : d.Shaped t) (hd : d.Ranked)
    (hvalue : d.value = some t) : ∃ tier, d.Keeps t tier := by
  obtain ⟨hcount, hbase, tier, hmiddle⟩ := h
  rw [Ranked, arguments_eq] at hd
  rw [storedBlock, total_eq, denseShape_eq] at hmiddle
  rw [total_eq] at hcount
  rw [Derivative.base_eq] at hbase
  have hform := isDiagonal_iff d
  refine ⟨tier, hvalue, hbase, ?_, length_intrinsicShape (hd _ (by simp)),
    length_intrinsicShape (hd _ (by simp)), fun hdiag => ?_, fun hdense => ?_⟩
  · rw [hmiddle, block]
    by_cases hdiag : d.isDiagonal = true
    · rw [if_pos hdiag, if_neg (by rw [hform] at hdiag; omega)]
    · rw [if_neg hdiag, if_pos (by rw [hform] at hdiag; omega)]
  · rw [hform] at hdiag
    omega
  · rw [hform] at hdense
    omega

theorem Keeps.shaped {d : Derivative α 1} {t : Tensor α} {tier : Shape} (h : d.Keeps t tier) :
    d.Shaped t := by
  have hform := isDiagonal_iff d
  refine ⟨?_, h.base_eq.trans (Derivative.base_eq d).symm, tier, ?_⟩
  · by_cases hdiag : d.isDiagonal = true
    · exact .inl (h.count_le hdiag)
    · rw [total_eq]
      exact .inr (h.count_eq hdiag)
  · rw [h.middle_eq, block, storedBlock, total_eq, denseShape_eq]
    by_cases hdiag : d.isDiagonal = true
    · rw [if_pos hdiag, if_neg (by rw [hform] at hdiag; omega)]
    · rw [if_neg hdiag, if_pos (h.count_eq hdiag)]

theorem keeps_of_assigned [Zero α] {d : Derivative α 1} (h : d.Assigned) :
    ∃ t tier, d.Keeps t tier := by
  obtain ⟨d₀, t₀, hcheck, hassign⟩ := h
  obtain ⟨hbase, t, ht, rfl⟩ := withValue_eq_ok.1 (assign_outcome_eq_ok.1 hassign)
  have hranked : d₀.Ranked := (checkDeclaration_eq_ok_iff.1 hcheck).1
  obtain ⟨hcount, hkept, hmiddle⟩ := hranked.shaped_of_expandIntrinsic hbase ht
  have hshaped : ({ d₀ with value := some t } : Derivative α 1).Shaped t :=
    ⟨hcount, hkept, hmiddle⟩
  exact ⟨t, hshaped.exists_keeps hranked rfl⟩

/-- A value in the intrinsic block of the derivative's form. -/
structure Stores (d : Derivative α 1) (t : Tensor α) (tier : Shape) : Prop where
  value_eq : d.value = some t
  base_eq : t.base = d.target.base ++ d.argument.base
  middle_eq : t.middle = tier ++ d.block
  count : d.intrinsic = d.block.length
  target_length : d.target.intrinsicShape.length = d.target.intrinsic
  argument_length : d.argument.intrinsicShape.length = d.argument.intrinsic
  diagonal : d.isDiagonal = true → d.target.intrinsicShape = d.argument.intrinsicShape

theorem Stores.extrinsicShape_eq {d : Derivative α 1} {t : Tensor α} {tier : Shape}
    (h : d.Stores t tier) : d.extrinsicShape = tier := by
  unfold extrinsicShape middle?
  rw [h.value_eq]
  change t.middle.take (t.middle.length - d.intrinsic) = tier
  rw [h.middle_eq, h.count, List.length_append, Nat.add_sub_cancel, List.take_left]

theorem Keeps.stores {d : Derivative α 1} {t : Tensor α} {tier : Shape} (h : d.Keeps t tier)
    (hcount : d.isDiagonal = true → d.intrinsic = d.target.intrinsic)
    (hshape : d.isDiagonal = true → d.target.intrinsicShape = d.argument.intrinsicShape) :
    d.Stores t tier := by
  refine ⟨h.value_eq, h.base_eq, h.middle_eq, ?_, h.target_length, h.argument_length, hshape⟩
  unfold block
  by_cases hdiag : d.isDiagonal = true
  · rw [if_pos hdiag, hcount hdiag, h.target_length]
  · rw [if_neg hdiag, h.count_eq hdiag, List.length_append, h.target_length, h.argument_length]

theorem Keeps.stores_of_inForm {d : Derivative α 1} {t : Tensor α} {tier : Shape}
    (h : d.Keeps t tier) (hf : d.InForm) : d.Stores t tier := by
  have hdiagonal : d.isDiagonal = true →
      d.intrinsic = d.target.intrinsic ∧ d.target.intrinsicShape = d.argument.intrinsicShape := by
    intro hdiag
    have hlt := (isDiagonal_iff d).1 hdiag
    rw [InForm, total_eq] at hf
    exact hf.resolve_left (by omega)
  exact h.stores (fun hdiag => (hdiagonal hdiag).1) fun hdiag => (hdiagonal hdiag).2

theorem stores_of_assigned [Zero α] {d : Derivative α 1} (h : d.Assigned) (hf : d.InForm) :
    ∃ t, d.Stores t d.extrinsicShape := by
  obtain ⟨t, tier, hkeeps⟩ := keeps_of_assigned h
  have hstores := hkeeps.stores_of_inForm hf
  exact ⟨t, hstores.extrinsicShape_eq ▸ hstores⟩

/-! ## Dense forms -/

section Dense

variable [Scalar α]

theorem tensor_eq_ok (hfin : ∀ x : α, Scalar.isFinite x = true) {n : Nat} {d : Derivative α n}
    {t : Tensor α} (h : d.value = some t) : d.tensor = .ok t := by
  unfold tensor
  rw [h]
  dsimp only
  rw [if_pos]
  rw [Array.all_eq_true]
  intro i hi
  exact hfin _

theorem dense_of_not_diagonal [Zero α] (hfin : ∀ x : α, Scalar.isFinite x = true)
    {d : Derivative α 1} {t : Tensor α} (hd : ¬d.isDiagonal = true) (h : d.value = some t) :
    d.dense = .ok t := by
  unfold Derivative.dense
  rw [tensor_eq_ok hfin h]
  change (if d.isDiagonal = true then _ else _) = _
  rw [if_neg hd]
  rfl

variable [CommRing α]

/-- The entry of the dense form of a stored value: zero off the diagonal where the value is
diagonal. -/
def fullCell (d : Derivative α 1) (t : Tensor α) (b e p q : Index) (k : Nat) : α :=
  if d.isDiagonal then if p = q then t.cell b (e ++ p) k else 0 else t.cell b (e ++ (p ++ q)) k

/-- The tensor spans the intrinsic shapes of target and argument and has the entries of the
dense form of a stored value. -/
structure DenseOf (d : Derivative α 1) (t : Tensor α) (tier : Shape) (c : Tensor α) : Prop where
  batch_eq : c.batch = t.batch
  middle_eq : c.middle = tier ++ (d.target.intrinsicShape ++ d.argument.intrinsicShape)
  base_eq : c.base = d.target.base ++ d.argument.base
  cell_eq : ∀ {b e p q k}, Shape.InBounds t.batch b → Shape.InBounds tier e →
    Shape.InBounds d.target.intrinsicShape p → Shape.InBounds d.argument.intrinsicShape q →
    k < (d.target.base ++ d.argument.base).numel →
    c.cell b (e ++ (p ++ q)) k = d.fullCell t b e p q k

theorem Stores.dense (hfin : ∀ x : α, Scalar.isFinite x = true) {d : Derivative α 1}
    {t : Tensor α} {tier : Shape} (h : d.Stores t tier) :
    ∃ c, d.dense = .ok c ∧ d.DenseOf t tier c := by
  obtain ⟨hvalue, hbase, hmiddle, -, -, -, hshape⟩ := h
  unfold block at hmiddle
  by_cases hdiag : d.isDiagonal = true
  · rw [if_pos hdiag] at hmiddle
    obtain ⟨c, hc, hb, hm, hbase', hcell⟩ := Tensor.diagonalize_cell hmiddle
    refine ⟨c, ?_, hb, hshape hdiag ▸ hm, hbase'.trans hbase, fun hib hie hip hiq hk => ?_⟩
    · unfold Derivative.dense
      rw [tensor_eq_ok hfin hvalue]
      change (if d.isDiagonal = true then _ else _) = _
      rw [if_pos hdiag, if_pos (hshape hdiag)]
      exact hc
    · unfold fullCell
      rw [if_pos hdiag, hcell hib hie hip (hshape hdiag ▸ hiq) (hbase ▸ hk)]
  · rw [if_neg hdiag] at hmiddle
    refine ⟨t, dense_of_not_diagonal hfin hdiag hvalue, rfl, hmiddle, hbase,
      fun _ _ _ _ _ => ?_⟩
    unfold fullCell
    rw [if_neg hdiag]

omit [Scalar α] in
theorem DenseOf.entry_eq {d : Derivative α 1} {t c : Tensor α} {tier : Shape}
    (h : d.DenseOf t tier c) {b e p q i j : Index} (hb : Shape.InBounds t.batch b)
    (he : Shape.InBounds tier e) (hp : Shape.InBounds d.target.intrinsicShape p)
    (hq : Shape.InBounds d.argument.intrinsicShape q) (hi : Shape.InBounds d.target.base i)
    (hj : Shape.InBounds d.argument.base j) :
    c.entry (b ++ (e ++ (p ++ q)) ++ (i ++ j)) =
      d.fullCell t b e p q (d.target.base.offset i * d.argument.base.numel +
        d.argument.base.offset j) := by
  obtain ⟨hcb, hcm, hcbase, hcell⟩ := h
  have hm := Shape.inBounds_append he (Shape.inBounds_append hp hq)
  have hk := Shape.offset_lt (Shape.inBounds_append hi hj)
  rw [Tensor.entry_eq_cell c _ (hcb ▸ hb.length_eq) (hcm ▸ hm.length_eq), hcbase,
    hcell hb he hp hq hk, Shape.offset_append hi.length_eq]

end Dense

end TieredCalculus.Derivative
