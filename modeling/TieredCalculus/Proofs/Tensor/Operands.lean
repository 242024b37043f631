import TieredCalculus.Proofs.Shape.Bounds
import TieredCalculus.Proofs.Tensor.View

/-! # Operands over common tiers

A contraction brings its operands to common tiers and applies a kernel to their cells at every
index. Operands are brought there at once or in steps: a tensor over the common tiers of some of
them stands for these.
-/

namespace TieredCalculus.Tensor

variable {α : Type} {batch middle : Shape}

/-! ## Common tiers -/

/-- The batches and the intermediate shapes of some tensors broadcast to these two shapes. -/
structure Join (operands : List (Tensor α)) (batch middle : Shape) : Prop where
  batch : Shape.broadcastAll (operands.map (·.batch)) = .ok batch
  middle : Shape.broadcastAll (operands.map (·.middle)) = .ok middle

section Join

variable {operands others : List (Tensor α)} {t : Tensor α}

theorem Join.expandsTo (h : Join operands batch middle) (ht : t ∈ operands) :
    t.batch.expandsTo batch = true ∧ t.middle.expandsTo middle = true :=
  ⟨Shape.broadcastAll_expandsTo h.batch _ (List.mem_map_of_mem ht),
    Shape.broadcastAll_expandsTo h.middle _ (List.mem_map_of_mem ht)⟩

theorem join_congr (hbatch : operands.map (·.batch) = others.map (·.batch))
    (hmiddle : operands.map (·.middle) = others.map (·.middle)) :
    Join operands batch middle ↔ Join others batch middle :=
  ⟨fun h => ⟨hbatch ▸ h.batch, hmiddle ▸ h.middle⟩,
    fun h => ⟨hbatch ▸ h.batch, hmiddle ▸ h.middle⟩⟩

theorem join_perm (h : operands.Perm others) :
    Join operands batch middle ↔ Join others batch middle := by
  have hbatch := Shape.broadcastAll_perm (c := batch) (h.map (·.batch))
  have hmiddle := Shape.broadcastAll_perm (c := middle) (h.map (·.middle))
  exact ⟨fun hj => ⟨hbatch.1 hj.batch, hmiddle.1 hj.middle⟩,
    fun hj => ⟨hbatch.2 hj.batch, hmiddle.2 hj.middle⟩⟩

theorem Join.of_append (h : Join (operands ++ others) batch middle) :
    ∃ batch' middle', Join operands batch' middle' := by
  obtain ⟨hbatch, hmiddle⟩ := h
  rw [List.map_append] at hbatch hmiddle
  obtain ⟨batch', hb⟩ := Shape.exists_of_broadcastAll_append hbatch
  obtain ⟨middle', hm⟩ := Shape.exists_of_broadcastAll_append hmiddle
  exact ⟨batch', middle', hb, hm⟩

theorem Join.append_iff (h : Join operands t.batch t.middle) :
    Join (operands ++ others) batch middle ↔ Join (t :: others) batch middle := by
  have hbatch : Shape.broadcastAll ((operands ++ others).map (·.batch)) = .ok batch ↔
      Shape.broadcastAll ((t :: others).map (·.batch)) = .ok batch := by
    rw [List.map_append, Shape.broadcastAll_append h.batch, List.map_cons]
  have hmiddle : Shape.broadcastAll ((operands ++ others).map (·.middle)) = .ok middle ↔
      Shape.broadcastAll ((t :: others).map (·.middle)) = .ok middle := by
    rw [List.map_append, Shape.broadcastAll_append h.middle, List.map_cons]
  exact ⟨fun hj => ⟨hbatch.1 hj.batch, hmiddle.1 hj.middle⟩,
    fun hj => ⟨hbatch.2 hj.batch, hmiddle.2 hj.middle⟩⟩

end Join

/-! ## Contractions -/

section Contract

variable [Zero α] {operands : List (Tensor α)} {base : Shape}
  {kernel : (Nat → Index → α) → Index → α}

def cellAt (t : Tensor α) (b w : Index) (k : Nat) : α :=
  t.cell (t.batch.project b) (t.middle.project w) k

def operandCell (operands : List (Tensor α)) (b w : Index) (i : Nat) (e : Index) : α :=
  match operands[i]? with
  | some t => t.cellAt b w (t.base.offset e)
  | none => 0

theorem contract_eq_ok {r : Tensor α} :
    contract operands base kernel = .ok r ↔
      ∃ batch middle, Join operands batch middle ∧
        r = tabulate batch middle base fun idx =>
          kernel (blockEntry (operands.map fun t => t.padLeading
            (Shape.maxRank (operands.map (·.batch))) (Shape.maxRank (operands.map (·.middle))))
            (idx.take (batch.length + middle.length)))
            (idx.drop (batch.length + middle.length)) := by
  have hbatch : (operands.map fun t => t.batch.length).foldl max 0 =
      Shape.maxRank (operands.map (·.batch)) := by
    rw [Shape.maxRank, List.map_map]
    rfl
  have hmiddle : (operands.map fun t => t.middle.length).foldl max 0 =
      Shape.maxRank (operands.map (·.middle)) := by
    rw [Shape.maxRank, List.map_map]
    rfl
  have hpadded : ∀ n k, (operands.map fun t => t.padLeading n k).map (·.batch) =
        (operands.map (·.batch)).map (Shape.padLeft n) ∧
      (operands.map fun t => t.padLeading n k).map (·.middle) =
        (operands.map (·.middle)).map (Shape.padLeft k) := by
    intro n k
    rw [List.map_map, List.map_map, List.map_map, List.map_map]
    exact ⟨rfl, rfl⟩
  unfold contract
  rw [hbatch, hmiddle]
  dsimp only
  rw [(hpadded _ _).1, (hpadded _ _).2, Update.except_bind_eq_ok]
  constructor
  · rintro ⟨batch, hb, h⟩
    obtain ⟨middle, hm, h⟩ := Update.except_bind_eq_ok.1 h
    cases h
    exact ⟨batch, middle, ⟨Shape.broadcastAll_padLeft.1 hb, Shape.broadcastAll_padLeft.1 hm⟩, rfl⟩
  · rintro ⟨batch, middle, ⟨hb, hm⟩, rfl⟩
    refine ⟨batch, Shape.broadcastAll_padLeft.2 hb, ?_⟩
    exact Update.except_bind_eq_ok.2 ⟨middle, Shape.broadcastAll_padLeft.2 hm, rfl⟩

/-- At every index of the common tiers the kernel is applied to the cells read there. -/
theorem contract_view {batch middle : Shape} {g : Index → Index → Nat → α}
    (h : Join operands batch middle)
    (hg : ∀ {b w e}, Shape.InBounds batch b → Shape.InBounds middle w → Shape.InBounds base e →
      kernel (operandCell operands b w) e = g b w (base.offset e)) :
    ∃ r, contract operands base kernel = .ok r ∧ r.View batch middle base g := by
  refine ⟨_, contract_eq_ok.2 ⟨batch, middle, h, rfl⟩,
    view_tabulate _ fun {b w e} hib hiw hie => ?_⟩
  have hlead : (b ++ w).length = batch.length + middle.length := by
    rw [List.length_append, hib.length_eq, hiw.length_eq]
  rw [← hlead, List.take_left, List.drop_left, ← hg hib hiw hie]
  congr 1
  funext i e
  unfold blockEntry operandCell
  rw [List.getElem?_map]
  cases hi : operands[i]? with
  | none => rfl
  | some t =>
    have hmem : t ∈ operands := List.mem_of_getElem? hi
    exact entry_padLeading t (Shape.length_le_maxRank (List.mem_map_of_mem hmem))
      (Shape.length_le_maxRank (List.mem_map_of_mem hmem)) e
      (hib.length_eq.trans (Shape.length_of_broadcastAll h.batch))
      (hiw.length_eq.trans (Shape.length_of_broadcastAll h.middle))

theorem Join.entry_eq {t : Tensor α} {l w : Index} (h : Join operands batch middle)
    (ht : t ∈ operands) (hl : Shape.InBounds batch l) (hw : Shape.InBounds middle w) (e : Index) :
    t.entry (t.batch.project l ++ t.middle.project w ++ e) = t.cellAt l w (t.base.offset e) := by
  obtain ⟨hb, hm⟩ := h.expandsTo ht
  exact entry_eq_cell t e (Shape.length_project (hl.length_eq ▸ Shape.expandsTo_length hb))
    (Shape.length_project (hw.length_eq ▸ Shape.expandsTo_length hm))

theorem Join.cellAt_eq {others : List (Tensor α)} {t : Tensor α} {batch' middle' : Shape}
    {f : Index → Index → Nat → α} {l w : Index} (h : Join operands batch' middle')
    (v : t.View batch' middle' base f) (ht : Join (t :: others) batch middle)
    (hl : Shape.InBounds batch l) (hw : Shape.InBounds middle w) :
    (∀ k < base.numel, t.cellAt l w k = f (batch'.project l) (middle'.project w) k) ∧
      ∀ s ∈ operands, s.cellAt (batch'.project l) (middle'.project w) = s.cellAt l w := by
  obtain ⟨hb, hm⟩ := ht.expandsTo List.mem_cons_self
  obtain ⟨rfl, rfl, rfl, hcell⟩ := v
  refine ⟨fun k hk => hcell (Shape.project_inBounds hb hl) (Shape.project_inBounds hm hw) hk,
    fun s hs => ?_⟩
  obtain ⟨hsb, hsm⟩ := h.expandsTo hs
  funext k
  unfold cellAt
  rw [Shape.project_project hsb (hl.length_eq ▸ Shape.expandsTo_length hb),
    Shape.project_project hsm (hw.length_eq ▸ Shape.expandsTo_length hm)]

end Contract

end TieredCalculus.Tensor
