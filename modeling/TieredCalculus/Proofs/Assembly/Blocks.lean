import Mathlib.Algebra.Ring.Int.Defs
import TieredCalculus.Proofs.Assembly.Packing

/-! # Packing blocks along two axes

The blocks of pairs of variables are packed row by row and the rows below each other. The
result holds every block in the windows of its two variables and zeros where a block is
absent, over the least common expansion of the batch shapes of all blocks on the axes, and
unpacking it gives the blocks back.
-/

namespace TieredCalculus.Axis

open Tensor AxisPlan

variable {α : Type}

/-! ## Blocks on the axes -/

def blockOf (blocks : PathMap (PathMap (Tensor α))) (r c : VariableLayout) : Option (Tensor α) :=
  (blocks.get? r.name).bind (·.get? c.name)

def rowOf (blocks : PathMap (PathMap (Tensor α))) (r : VariableLayout) : PathMap (Tensor α) :=
  (blocks.get? r.name).getD .empty

def presentBlocks (rows cols : Axis) (blocks : PathMap (PathMap (Tensor α))) :
    List (Tensor α) :=
  rows.leaves.flatMap fun r => cols.leaves.filterMap (blockOf blocks r)

/-- The blocks on the axes are matrices of the sizes of their variables. -/
def BlocksFit (rows cols : Axis) (blocks : PathMap (PathMap (Tensor α))) : Prop :=
  ∀ r ∈ rows.leaves, ∀ c ∈ cols.leaves, ∀ t, blockOf blocks r c = some t →
    t.middle = [] ∧ t.base = [r.storage, c.storage]

theorem get?_rowOf (blocks : PathMap (PathMap (Tensor α))) (r c : VariableLayout) :
    (rowOf blocks r).get? c.name = blockOf blocks r c := by
  unfold rowOf blockOf
  cases blocks.get? r.name <;> rfl

variable [Zero α]

/-- The tensor holds every block in the windows of its variables, zeros where it is absent. -/
structure Packs (rows cols : Axis) (blocks : PathMap (PathMap (Tensor α))) (batch : Shape)
    (t : Tensor α) : Prop where
  batch_eq : t.batch = batch
  middle_eq : t.middle = []
  base_eq : t.base = [rows.size, cols.size]
  entry_eq : ∀ r ∈ rows.leaves, ∀ c ∈ cols.leaves, ∀ {b : Index} {i j : Nat},
    Shape.InBounds batch b → i < r.storage → j < c.storage →
    t.entry (b ++ [r.start + i, c.start + j]) = partEntry (blockOf blocks r c) b [i, j]

variable {rows cols : Axis} {blocks : PathMap (PathMap (Tensor α))} {batch : Shape}

theorem exists_row_col_of_inBounds {m n : Nat} {idx : Index}
    (h : Shape.InBounds (batch ++ [] ++ [m, n]) idx) :
    ∃ b i j, idx = b ++ [i, j] ∧ Shape.InBounds batch b ∧ i < m ∧ j < n := by
  rw [List.append_nil] at h
  obtain ⟨b, e, rfl, hb, he⟩ := Shape.exists_append_of_inBounds h
  match e, he with
  | [i, j], he => exact ⟨b, i, j, rfl, hb, he.1, he.2.1⟩

theorem ext_windows (hrows : rows.Laid) (hcols : cols.Laid) {s t : Tensor α}
    (hbatch : s.batch = t.batch) (hs : s.middle = []) (ht : t.middle = [])
    (hsb : s.base = [rows.size, cols.size]) (htb : t.base = [rows.size, cols.size])
    (h : ∀ r ∈ rows.leaves, ∀ c ∈ cols.leaves, ∀ {b : Index} {i j : Nat},
      Shape.InBounds t.batch b → i < r.storage → j < c.storage →
      s.entry (b ++ [r.start + i, c.start + j]) = t.entry (b ++ [r.start + i, c.start + j])) :
    s = t := by
  refine ext_entry hbatch (hs.trans ht.symm) (hsb.trans htb.symm) fun idx hidx => ?_
  rw [shape, hbatch, hs, hsb] at hidx
  obtain ⟨b, i, j, rfl, hb, hi, hj⟩ := exists_row_col_of_inBounds hidx
  obtain ⟨r, ⟨hr, hle, hlt⟩, -⟩ := hrows.existsUnique hi
  obtain ⟨c, ⟨hc, hle', hlt'⟩, -⟩ := hcols.existsUnique hj
  rw [VariableLayout.stop] at hlt hlt'
  have hplace := h r hr c hc hb (show i - r.start < r.storage by omega)
    (show j - c.start < c.storage by omega)
  rwa [Nat.add_sub_cancel' hle, Nat.add_sub_cancel' hle'] at hplace

theorem Packs.unique (hrows : rows.Laid) (hcols : cols.Laid) {s t : Tensor α}
    (hs : Packs rows cols blocks batch s) (ht : Packs rows cols blocks batch t) : s = t := by
  refine ext_windows hrows hcols (hs.batch_eq.trans ht.batch_eq.symm) hs.middle_eq ht.middle_eq
    hs.base_eq ht.base_eq fun r hr c hc {b i j} hb hi hj => ?_
  rw [ht.batch_eq] at hb
  rw [hs.entry_eq r hr c hc hb hi hj, ht.entry_eq r hr c hc hb hi hj]

/-! ## Rows -/

theorem packRow_eq_ok (hcols : cols.Laid) {r : VariableLayout} {row : PathMap (Tensor α)}
    {strip : Option (Tensor α)} :
    packRow r cols row = .ok strip ↔
      (∀ c ∈ cols.leaves, ∀ t, row.get? c.name = some t →
        t.middle = [] ∧ t.base = [r.storage, c.storage]) ∧
      Joined cols.leaves (fun c => row.get? c.name) [r.storage] [] strip := by
  unfold packRow
  rw [Update.except_bind_eq_ok]
  constructor
  · rintro ⟨parts, hparts, h⟩
    obtain ⟨hfit, rfl⟩ := checkedParts_eq_ok.1 hparts
    exact ⟨hfit, (joinParts_eq_ok hcols.consecutive hfit).1 h⟩
  · rintro ⟨hfit, hjoined⟩
    exact ⟨_, checkedParts_eq_ok.2 ⟨hfit, rfl⟩,
      (joinParts_eq_ok hcols.consecutive hfit).2 hjoined⟩

/-- The packed row of a variable; none where the row cannot be packed. -/
def strip (cols : Axis) (blocks : PathMap (PathMap (Tensor α))) (r : VariableLayout) :
    Option (Tensor α) :=
  match packRow r cols (rowOf blocks r) with
  | .ok t => t
  | .error _ => none

theorem strip_eq {r : VariableLayout} {t : Option (Tensor α)}
    (h : packRow r cols (rowOf blocks r) = .ok t) : strip cols blocks r = t := by
  unfold strip
  rw [h]

theorem packRow_empty (hcols : cols.Laid) (r : VariableLayout) :
    packRow r cols (.empty : PathMap (Tensor α)) = .ok none := by
  refine (packRow_eq_ok hcols).2 ⟨fun c _ t ht => ?_, .absent fun c _ => rfl⟩
  cases ht

theorem packedRow_eq (hcols : cols.Laid) (blocks : PathMap (PathMap (Tensor α)))
    (r : VariableLayout) :
    (match blocks.get? r.name with
      | some row => do return (← packRow r cols row, [r.storage, cols.size])
      | none => return (none, [r.storage, cols.size]) :
        Except TensorError (Option (Tensor α) × Shape)) =
      packRow r cols (rowOf blocks r) >>= fun t => pure (t, [r.storage, cols.size]) := by
  unfold rowOf
  cases blocks.get? r.name with
  | none =>
    rw [Option.getD_none, packRow_empty hcols]
    rfl
  | some row => rfl

theorem packedRows_eq_ok (hcols : cols.Laid) {parts : List (Option (Tensor α) × Shape)} :
    (rows.leaves.mapM (m := Except TensorError) fun r =>
      match blocks.get? r.name with
      | some row => return (← packRow r cols row, [r.storage, cols.size])
      | none => return (none, [r.storage, cols.size])) = .ok parts ↔
      (∀ r ∈ rows.leaves, packRow r cols (rowOf blocks r) = .ok (strip cols blocks r)) ∧
        parts = rows.leaves.map fun r => (strip cols blocks r, [r.storage, cols.size]) := by
  apply Update.except_mapM_eq_ok_map
  intro r part
  rw [packedRow_eq hcols, Update.except_bind_eq_ok]
  constructor
  · rintro ⟨t, ht, h⟩
    cases h
    rw [strip_eq ht]
    exact ⟨ht, rfl⟩
  · rintro ⟨ht, rfl⟩
    exact ⟨_, ht, rfl⟩

theorem joined_strip (hcols : cols.Laid) {r : VariableLayout}
    (h : packRow r cols (rowOf blocks r) = .ok (strip cols blocks r)) :
    (∀ c ∈ cols.leaves, ∀ t, blockOf blocks r c = some t →
      t.middle = [] ∧ t.base = [r.storage, c.storage]) ∧
    Joined cols.leaves (blockOf blocks r) [r.storage] [] (strip cols blocks r) := by
  have hjoined := (packRow_eq_ok hcols).1 h
  simp only [get?_rowOf] at hjoined
  exact hjoined

theorem packRow_of_joined (hcols : cols.Laid) {r : VariableLayout} {t : Option (Tensor α)}
    (hfit : ∀ c ∈ cols.leaves, ∀ t, blockOf blocks r c = some t →
      t.middle = [] ∧ t.base = [r.storage, c.storage])
    (h : Joined cols.leaves (blockOf blocks r) [r.storage] [] t) :
    packRow r cols (rowOf blocks r) = .ok (strip cols blocks r) := by
  have hrow : packRow r cols (rowOf blocks r) = .ok t := by
    rw [packRow_eq_ok hcols]
    simp only [get?_rowOf]
    exact ⟨hfit, h⟩
  rw [strip_eq hrow, hrow]

/-! ## Matrices -/

omit [Zero α] in
theorem mem_presentBlocks {t : Tensor α} :
    t ∈ presentBlocks rows cols blocks ↔
      ∃ r ∈ rows.leaves, ∃ c ∈ cols.leaves, blockOf blocks r c = some t := by
  simp only [presentBlocks, List.mem_flatMap, List.mem_filterMap]

theorem isJoin_rows
    (h : ∀ r ∈ rows.leaves,
      Joined cols.leaves (blockOf blocks r) [r.storage] [] (strip cols blocks r)) :
    Shape.IsJoin ((rows.leaves.filterMap (strip cols blocks)).map (·.batch)) batch ↔
      Shape.IsJoin ((presentBlocks rows cols blocks).map (·.batch)) batch := by
  apply Shape.isJoin_congr
  intro larger
  simp only [List.forall_mem_map, List.mem_filterMap, mem_presentBlocks]
  constructor
  · rintro hlarger t ⟨r, hr, c, hc, hblock⟩
    exact (h r hr).expandsTo_iff.1 (fun s hs => hlarger s ⟨r, hr, hs⟩) c hc t hblock
  · rintro hlarger t ⟨r, hr, hstrip⟩
    exact (h r hr).expandsTo_iff.2 (fun c hc s hs => hlarger s ⟨r, hr, c, hc, hs⟩) t hstrip

theorem packs_of_stacks (hcols : cols.Laid)
    (h : ∀ r ∈ rows.leaves,
      Joined cols.leaves (blockOf blocks r) [r.storage] [] (strip cols blocks r))
    (hbatch : ∀ r ∈ rows.leaves, ∀ t, strip cols blocks r = some t →
      t.batch.expandsTo batch = true) {t : Tensor α}
    (ht : Stacks rows.leaves (strip cols blocks) [] [cols.size] batch t) :
    Packs rows cols blocks batch t := by
  refine ⟨ht.batch_eq, ht.middle_eq, ht.base_eq, fun r hr c hc {b i j} hb hi hj => ?_⟩
  have hrow := ht.entry_eq r hr (p := []) (q := [c.start + j]) hb trivial hi
    ⟨hcols.lt_size hc hj, trivial⟩
  rw [List.append_nil] at hrow
  rw [hrow]
  exact (h r hr).partEntry_eq (hbatch r hr) hc hb (p := [i]) (q := []) ⟨hi, trivial⟩ hj trivial

theorem strip_fits {r : VariableLayout} {s : Tensor α}
    (h : Joined cols.leaves (blockOf blocks r) [r.storage] [] (strip cols blocks r))
    (hs : strip cols blocks r = some s) :
    s.middle = [] ∧ s.base = [] ++ r.storage :: [cols.size] := by
  rw [hs] at h
  cases h with
  | stacked _ _ hstacks => exact ⟨hstacks.middle_eq, hstacks.base_eq⟩

theorem exists_packBlocks (hrows : rows.Laid) (hcols : cols.Laid)
    (hfit : BlocksFit rows cols blocks) (hne : presentBlocks rows cols blocks ≠ [])
    (hjoin : Shape.IsJoin ((presentBlocks rows cols blocks).map (·.batch)) batch) :
    ∃ t, packBlocks rows cols blocks = .ok t ∧ Packs rows cols blocks batch t := by
  have hbatch : ∀ r ∈ rows.leaves, ∀ c ∈ cols.leaves, ∀ s, blockOf blocks r c = some s →
      s.batch.expandsTo batch = true := fun r hr c hc s hs =>
    hjoin.bound _ (List.mem_map.2 ⟨s, mem_presentBlocks.2 ⟨r, hr, c, hc, hs⟩, rfl⟩)
  have hpacked : ∀ r ∈ rows.leaves,
      packRow r cols (rowOf blocks r) = .ok (strip cols blocks r) := by
    intro r hr
    obtain ⟨result, hresult⟩ : ∃ result,
        Joined cols.leaves (blockOf blocks r) [r.storage] [] result :=
      exists_joined hcols.consecutive (hfit r hr) (hbatch r hr)
    exact packRow_of_joined hcols (hfit r hr) hresult
  have hjoined := fun r hr => (joined_strip hcols (hpacked r hr)).2
  have hstrips := (isJoin_rows hjoined).2 hjoin
  have hstripFit : ∀ r ∈ rows.leaves, ∀ s, strip cols blocks r = some s →
      s.middle = [] ∧ s.base = [] ++ r.storage :: [cols.size] :=
    fun r hr s => strip_fits (hjoined r hr)
  obtain ⟨result, hresult⟩ : ∃ result,
      Joined rows.leaves (strip cols blocks) [] [cols.size] result :=
    exists_joined hrows.consecutive hstripFit (batch_expandsTo hstrips)
  have hparts := (joinParts_eq_ok hrows.consecutive hstripFit).2 hresult
  cases hresult with
  | absent habsent =>
    -- a block that is present makes the row of its variable present
    obtain ⟨s, hs⟩ := List.exists_mem_of_ne_nil _ hne
    obtain ⟨r, hr, c, hc, hblock⟩ := mem_presentBlocks.1 hs
    have hrow := hjoined r hr
    rw [habsent r hr] at hrow
    cases hrow with
    | absent hnone => simp [hnone c hc] at hblock
  | @stacked batch' t _ hjoin' hstacks =>
    obtain rfl := hstrips.unique hjoin'
    refine ⟨t, ?_, packs_of_stacks hcols hjoined (batch_expandsTo hstrips) hstacks⟩
    exact Update.except_bind_eq_ok.2 ⟨_, (packedRows_eq_ok hcols).2 ⟨hpacked, rfl⟩,
      Update.except_bind_eq_ok.2 ⟨_, hparts, rfl⟩⟩

theorem packs_of_packBlocks (hrows : rows.Laid) (hcols : cols.Laid) {t : Tensor α}
    (h : packBlocks rows cols blocks = .ok t) :
    BlocksFit rows cols blocks ∧ presentBlocks rows cols blocks ≠ [] ∧
      ∃ batch, Shape.IsJoin ((presentBlocks rows cols blocks).map (·.batch)) batch ∧
        Packs rows cols blocks batch t := by
  obtain ⟨parts, hparts, h⟩ := Update.except_bind_eq_ok.1 h
  obtain ⟨hpacked, rfl⟩ := (packedRows_eq_ok hcols).1 hparts
  have hjoined := fun r hr => (joined_strip hcols (hpacked r hr)).2
  obtain ⟨result, hresult, h⟩ := Update.except_bind_eq_ok.1 h
  have hstrips := (joinParts_eq_ok hrows.consecutive
    fun r hr s => strip_fits (hjoined r hr)).1 hresult
  cases hstrips with
  | absent => cases h
  | @stacked batch t' hpresent hjoin hstacks =>
    cases h
    refine ⟨fun r hr => (joined_strip hcols (hpacked r hr)).1, ?_, batch,
      (isJoin_rows hjoined).1 hjoin,
      packs_of_stacks hcols hjoined (batch_expandsTo hjoin) hstacks⟩
    obtain ⟨r, hr, hsome⟩ := hpresent
    obtain ⟨s, hs⟩ := Option.isSome_iff_exists.1 hsome
    have hrow := hjoined r hr
    rw [hs] at hrow
    cases hrow with
    | stacked hblock _ _ =>
      obtain ⟨c, hc, hsome⟩ := hblock
      obtain ⟨b, hb⟩ := Option.isSome_iff_exists.1 hsome
      exact List.ne_nil_of_mem (mem_presentBlocks.2 ⟨r, hr, c, hc, hb⟩)

theorem packBlocks_isOk_iff (hrows : rows.Laid) (hcols : cols.Laid) :
    (∃ t, packBlocks rows cols blocks = .ok t) ↔
      BlocksFit rows cols blocks ∧ presentBlocks rows cols blocks ≠ [] ∧ ∃ batch,
        Shape.broadcastAll ((presentBlocks rows cols blocks).map (·.batch)) = .ok batch := by
  constructor
  · rintro ⟨t, ht⟩
    obtain ⟨hfit, hne, batch, hjoin, -⟩ := packs_of_packBlocks hrows hcols ht
    exact ⟨hfit, hne, batch, Shape.broadcastAll_eq_ok.2 hjoin⟩
  · rintro ⟨hfit, hne, batch, hbatch⟩
    obtain ⟨t, ht, -⟩ :=
      exists_packBlocks hrows hcols hfit hne (Shape.broadcastAll_eq_ok.1 hbatch)
    exact ⟨t, ht⟩

theorem packBlocks_of_packs (hrows : rows.Laid) (hcols : cols.Laid)
    (hfit : BlocksFit rows cols blocks) (hne : presentBlocks rows cols blocks ≠ [])
    (hjoin : Shape.IsJoin ((presentBlocks rows cols blocks).map (·.batch)) batch) {t : Tensor α}
    (ht : Packs rows cols blocks batch t) : packBlocks rows cols blocks = .ok t := by
  obtain ⟨t', ht', hpacks⟩ := exists_packBlocks hrows hcols hfit hne hjoin
  rw [ht', hpacks.unique hrows hcols ht]

theorem packRow_congr {r : VariableLayout} {row other : PathMap (Tensor α)}
    (h : ∀ c ∈ cols.leaves, other.get? c.name = row.get? c.name) :
    packRow r cols other = packRow r cols row := by
  unfold packRow
  congr 1
  exact Update.except_mapM_congr fun c hc => by rw [h c hc]

/-- Only the blocks on the axes count, also for the error that is reported. -/
theorem packBlocks_congr (hcols : cols.Laid) {others : PathMap (PathMap (Tensor α))}
    (h : ∀ r ∈ rows.leaves, ∀ c ∈ cols.leaves, blockOf others r c = blockOf blocks r c) :
    packBlocks rows cols others = packBlocks rows cols blocks := by
  unfold packBlocks
  congr 1
  refine Update.except_mapM_congr fun r hr => ?_
  refine (packedRow_eq hcols others r).trans (Eq.trans ?_ (packedRow_eq hcols blocks r).symm)
  congr 1
  refine packRow_congr fun c hc => ?_
  rw [get?_rowOf, get?_rowOf, h r hr c hc]

theorem packRow_ne {r : VariableLayout} {cols : Axis} {row : PathMap (Tensor α)} :
    packRow r cols row ≠ .error .emptyAssembly := by
  unfold packRow
  intro h
  rcases Update.except_bind_eq_error.1 h with h | ⟨batch, -, h⟩
  · refine Update.except_mapM_ne_error (fun part _ => ?_) h
    split
    · intro h
      rcases Update.except_bind_eq_error.1 h with h | ⟨_, -, h⟩
      · exact checkPart_ne h
      · cases h
    · intro h; cases h
  · exact joinParts_ne h

theorem packBlocks_eq_emptyAssembly (hrows : rows.Laid) (hcols : cols.Laid) :
    packBlocks rows cols blocks = .error .emptyAssembly ↔ presentBlocks rows cols blocks = [] := by
  constructor
  · intro h
    rcases Update.except_bind_eq_error.1 h with h | ⟨parts, hparts, h⟩
    · refine absurd h (Update.except_mapM_ne_error fun r _ => ?_)
      split
      · intro h
        rcases Update.except_bind_eq_error.1 h with h | ⟨_, -, h⟩
        · exact packRow_ne h
        · cases h
      · intro h; cases h
    · obtain ⟨hpacked, rfl⟩ := (packedRows_eq_ok hcols).1 hparts
      have hjoined := fun r hr => (joined_strip hcols (hpacked r hr)).2
      rcases Update.except_bind_eq_error.1 h with h | ⟨result, hresult, h⟩
      · exact absurd h joinParts_ne
      · have hstrips := (joinParts_eq_ok hrows.consecutive
          fun r hr s => strip_fits (hjoined r hr)).1 hresult
        cases hstrips with
        | stacked => cases h
        | absent habsent =>
          rw [List.eq_nil_iff_forall_not_mem]
          intro t ht
          obtain ⟨r, hr, c, hc, hblock⟩ := mem_presentBlocks.1 ht
          have hrow := hjoined r hr
          rw [habsent r hr] at hrow
          cases hrow with
          | absent hnone => simp [hnone c hc] at hblock
  · intro hempty
    have hnone : ∀ r ∈ rows.leaves, ∀ c ∈ cols.leaves, blockOf blocks r c = none := by
      intro r hr c hc
      rw [Option.eq_none_iff_forall_not_mem]
      intro t ht
      have hmem := mem_presentBlocks.2 ⟨r, hr, c, hc, ht⟩
      rw [hempty] at hmem
      cases hmem
    have hrow : ∀ r ∈ rows.leaves, packRow r cols (rowOf blocks r) = .ok none := by
      intro r hr
      have hget : ∀ c ∈ cols.leaves, (rowOf blocks r).get? c.name =
          (PathMap.empty : PathMap (Tensor α)).get? c.name :=
        fun c hc => (get?_rowOf blocks r c).trans (hnone r hr c hc)
      rw [packRow_congr hget, packRow_empty hcols]
    refine Update.except_bind_eq_error.2 (.inr ⟨_, (packedRows_eq_ok hcols).2
      ⟨fun r hr => by rw [hrow r hr, strip_eq (hrow r hr)], rfl⟩, ?_⟩)
    refine Update.except_bind_eq_error.2 (.inr ⟨_, joinParts_of_absent
      (fun r hr => strip_eq (hrow r hr)) _ _, rfl⟩)

/-! ## Unpacking -/

/-- The tensor is cut out of a matrix in the windows of two variables. -/
structure IsBlock (t : Tensor α) (r c : VariableLayout) (block : Tensor α) : Prop where
  batch_eq : block.batch = t.batch
  middle_eq : block.middle = []
  base_eq : block.base = [r.storage, c.storage]
  entry_eq : ∀ {b : Index} {i j : Nat}, Shape.InBounds t.batch b → i < r.storage →
    j < c.storage → block.entry (b ++ [i, j]) = t.entry (b ++ [r.start + i, c.start + j])

theorem IsBlock.of_windows {t strip block : Tensor α} {r c : VariableLayout} {n : Nat}
    (hstrip : Window t t.batch [] [] r.start r.storage [n] strip)
    (hblock : Window strip t.batch [] [r.storage] c.start c.storage [] block)
    (hc : c.stop ≤ n) : IsBlock t r c block := by
  refine ⟨hblock.batch_eq, hblock.middle_eq, hblock.base_eq, fun {b i j} hb hi hj => ?_⟩
  have hin : Shape.InBounds (t.batch ++ [] ++ []) b := by simpa using hb
  have hrow : Shape.InBounds (t.batch ++ [] ++ [r.storage]) (b ++ [i]) := by
    rw [List.append_nil]
    exact Shape.inBounds_append hb ⟨hi, trivial⟩
  have hcol : c.start + j < n := Nat.lt_of_lt_of_le (Nat.add_lt_add_left hj c.start) hc
  have hread := hblock.entry_eq (c := []) hrow hj trivial
  have hread' := hstrip.entry_eq (c := [c.start + j]) hin hi ⟨hcol, trivial⟩
  rw [List.append_assoc, List.append_assoc] at hread
  exact hread.trans hread'

theorem exists_splitStrip (hcols : cols.Laid) {t strip : Tensor α} {r : VariableLayout}
    (h : Window t t.batch [] [] r.start r.storage [cols.size] strip) :
    ∃ blocks, strip.split cols.storageSizes 1 = .ok blocks ∧
      List.Forall₂ (fun c block => IsBlock t r c block) cols.leaves blocks := by
  have hslab : Slab t.batch [] [r.storage]
      (Shape.total (cols.leaves.map (·.storage))) [] strip := ⟨h.batch_eq, h.middle_eq, h.base_eq⟩
  obtain ⟨blocks, hblocks, hwindows⟩ := hslab.split hcols.consecutive
  refine ⟨blocks, hblocks, List.forall₂_iff_zip.2 ⟨hwindows.length_eq, fun {c block} hmem => ?_⟩⟩
  exact .of_windows h (List.forall₂_zip hwindows hmem) (hcols.stop_le (List.of_mem_zip hmem).1)

/-- The map has the blocks of a row variable, and no others. -/
structure IsRow (t : Tensor α) (cols : Axis) (r : VariableLayout) (row : PathMap (Tensor α)) :
    Prop where
  names : ∀ {q}, (row.get? q).isSome → q ∈ cols.names
  blocks : ∀ c ∈ cols.leaves, ∃ block, row.get? c.name = some block ∧ IsBlock t r c block

theorem exists_splitStrips (hcols : cols.Laid) {t : Tensor α} {vars : List VariableLayout}
    {strips : List (Tensor α)}
    (h : List.Forall₂ (fun r strip => Window t t.batch [] [] r.start r.storage [cols.size] strip)
      vars strips) :
    ∃ entries, (((vars.map (·.name)).zip strips).mapM
        (m := Except TensorError) fun (name, strip) => do
          return (name, PathMap.ofList
            (cols.names.zip (← strip.split cols.storageSizes 1)))) = .ok entries ∧
      List.Forall₂ (fun r e => e.1 = r.name ∧ IsRow t cols r e.2) vars entries := by
  refine Update.except_mapM_forall₂ (forall₂_zip_names h) ?_
  rintro r ⟨_, strip⟩ ⟨rfl, hstrip⟩
  obtain ⟨blocks, hblocks, hcut⟩ := exists_splitStrip hcols hstrip
  have hnamed := forall₂_zip_names hcut
  exact ⟨_, Update.except_bind_eq_ok.2 ⟨blocks, hblocks, rfl⟩, rfl,
    fun {q} => mem_names_of_get?_ofList hnamed,
    fun c hc => get?_ofList_of_forall₂ hcols.nodup_names hnamed hc⟩

theorem exists_unpackRows (hrows : rows.Laid) (hcols : cols.Laid) {t : Tensor α}
    (hm : t.middle = []) (hbase : t.base = [rows.size, cols.size]) :
    ∃ blocks, unpackBlocks rows cols t = .ok blocks ∧
      (∀ p, (blocks.get? p).isSome → p ∈ rows.names) ∧
      ∀ r ∈ rows.leaves, ∃ row, blocks.get? r.name = some row ∧ IsRow t cols r row := by
  have hslab : Slab t.batch [] [] (Shape.total (rows.leaves.map (·.storage))) [cols.size] t :=
    ⟨rfl, hm, hbase⟩
  obtain ⟨strips, hstrips, hwindows⟩ := hslab.split hrows.consecutive
  obtain ⟨entries, hentries, hfound⟩ := exists_splitStrips hcols hwindows
  refine ⟨.ofList entries, ?_, fun p => mem_names_of_get?_ofList hfound,
    fun r hr => get?_ofList_of_forall₂ hrows.nodup_names hfound hr⟩
  unfold unpackBlocks
  exact Update.except_bind_eq_ok.2 ⟨(), checkPart_eq_ok.2 ⟨hm, hbase⟩,
    Update.except_bind_eq_ok.2 ⟨strips, hstrips,
      Update.except_bind_eq_ok.2 ⟨entries, hentries, rfl⟩⟩⟩

theorem exists_unpackBlocks (hrows : rows.Laid) (hcols : cols.Laid) {t : Tensor α}
    (hm : t.middle = []) (hbase : t.base = [rows.size, cols.size]) :
    ∃ blocks, unpackBlocks rows cols t = .ok blocks ∧
      (∀ p q, ((blocks.get? p).bind (·.get? q)).isSome → p ∈ rows.names ∧ q ∈ cols.names) ∧
      ∀ r ∈ rows.leaves, ∀ c ∈ cols.leaves, ∃ block, blockOf blocks r c = some block ∧
        IsBlock t r c block := by
  obtain ⟨blocks, hblocks, hnames, hfound⟩ := exists_unpackRows hrows hcols hm hbase
  refine ⟨blocks, hblocks, fun p q hpq => ?_, fun r hr c hc => ?_⟩
  · cases hrow : blocks.get? p with
    | none => simp [hrow] at hpq
    | some row =>
      have hp := hnames p (by rw [hrow]; rfl)
      obtain ⟨r, hr, rfl⟩ := List.mem_map.1 hp
      obtain ⟨row', hrow', hcut⟩ := hfound r hr
      rw [hrow] at hrow'
      cases hrow'
      rw [hrow] at hpq
      exact ⟨hp, hcut.names hpq⟩
  · obtain ⟨row, hrow, hrowOf⟩ := hfound r hr
    obtain ⟨block, hblock, hcut⟩ := hrowOf.blocks c hc
    refine ⟨block, ?_, hcut⟩
    unfold blockOf
    rw [hrow]
    exact hblock

/-! ## Packing and unpacking -/

theorem Packs.entry_project {t : Tensor α} (ht : Packs rows cols blocks batch t)
    (hjoin : Shape.IsJoin ((presentBlocks rows cols blocks).map (·.batch)) batch)
    {larger : Shape} (hlarger : batch.expandsTo larger = true) {r c : VariableLayout}
    (hr : r ∈ rows.leaves) (hc : c ∈ cols.leaves) {b : Index} {i j : Nat}
    (hb : Shape.InBounds larger b) (hi : i < r.storage) (hj : j < c.storage) :
    t.entry (t.batch.project b ++ [r.start + i, c.start + j]) =
      partEntry (blockOf blocks r c) b [i, j] := by
  have hlen : batch.length ≤ b.length := by
    rw [hb.length_eq]
    exact Shape.expandsTo_length hlarger
  rw [ht.batch_eq, ht.entry_eq r hr c hc (Shape.project_inBounds hlarger hb) hi hj]
  exact partEntry_project _ (fun s hs => hjoin.bound _
    (List.mem_map.2 ⟨s, mem_presentBlocks.2 ⟨r, hr, c, hc, hs⟩, rfl⟩)) hlen

theorem Packs.shows {t : Tensor α} (ht : Packs rows cols blocks batch t) {r c : VariableLayout}
    (hr : r ∈ rows.leaves) (hc : c ∈ cols.leaves) {block : Tensor α} (h : IsBlock t r c block) :
    Shows (blockOf blocks r c) batch [r.storage, c.storage] block := by
  refine ⟨h.batch_eq.trans ht.batch_eq, h.middle_eq, h.base_eq, fun {b e} hb he => ?_⟩
  match e, he with
  | [i, j], he =>
    rw [h.entry_eq (ht.batch_eq ▸ hb) he.1 he.2.1, ht.entry_eq r hr c hc hb he.1 he.2.1]

theorem unpackBlocks_packBlocks (hrows : rows.Laid) (hcols : cols.Laid) {t : Tensor α}
    (h : packBlocks rows cols blocks = .ok t) :
    ∃ parts, unpackBlocks rows cols t = .ok parts ∧
      (∀ p q, ((parts.get? p).bind (·.get? q)).isSome → p ∈ rows.names ∧ q ∈ cols.names) ∧
      ∀ r ∈ rows.leaves, ∀ c ∈ cols.leaves, ∃ block, blockOf parts r c = some block ∧
        (∀ s, blockOf blocks r c = some s → s.expandBatch t.batch = .ok block) ∧
        (blockOf blocks r c = none → block = zeros t.batch [] [r.storage, c.storage]) := by
  obtain ⟨hfit, -, batch, hjoin, hpacks⟩ := packs_of_packBlocks hrows hcols h
  obtain rfl := hpacks.batch_eq
  obtain ⟨parts, hparts, hnames, hblocks⟩ :=
    exists_unpackBlocks hrows hcols hpacks.middle_eq hpacks.base_eq
  refine ⟨parts, hparts, hnames, fun r hr c hc => ?_⟩
  obtain ⟨block, hblock, hcut⟩ := hblocks r hr c hc
  have hshows := hpacks.shows hr hc hcut
  refine ⟨block, hblock, fun s hs => ?_, fun hnone => ?_⟩
  · obtain ⟨hm, hbase⟩ := hfit r hr c hc s hs
    have hexpands := hjoin.bound _
      (List.mem_map.2 ⟨s, mem_presentBlocks.2 ⟨r, hr, c, hc, hs⟩, rfl⟩)
    obtain ⟨w, hw, hsame⟩ := shows_expandBatch hm hbase hexpands
    rw [hs] at hshows
    rw [hw, hsame.unique hshows]
  · rw [hnone] at hshows
    exact hshows.unique (shows_zeros _ _)

theorem packBlocks_unpackBlocks (hrows : rows.Laid) (hcols : cols.Laid)
    (hr : rows.leaves ≠ []) (hc : cols.leaves ≠ []) {t : Tensor α} (hm : t.middle = [])
    (hbase : t.base = [rows.size, cols.size]) :
    ∃ parts, unpackBlocks rows cols t = .ok parts ∧ packBlocks rows cols parts = .ok t := by
  obtain ⟨parts, hparts, -, hblocks⟩ := exists_unpackBlocks hrows hcols hm hbase
  have hcut : ∀ r ∈ rows.leaves, ∀ c ∈ cols.leaves, ∀ s, blockOf parts r c = some s →
      IsBlock t r c s := by
    intro r hr c hc s hs
    obtain ⟨block, hblock, hcut⟩ := hblocks r hr c hc
    rw [hs] at hblock
    cases hblock
    exact hcut
  have hpresent : presentBlocks rows cols parts ≠ [] := by
    obtain ⟨r, hr⟩ := List.exists_mem_of_ne_nil _ hr
    obtain ⟨c, hc⟩ := List.exists_mem_of_ne_nil _ hc
    obtain ⟨block, hblock, -⟩ := hblocks r hr c hc
    exact List.ne_nil_of_mem (mem_presentBlocks.2 ⟨r, hr, c, hc, hblock⟩)
  have hjoin : Shape.IsJoin ((presentBlocks rows cols parts).map (·.batch)) t.batch := by
    refine Shape.isJoin_of_forall_eq (by simpa using hpresent) ?_
    rw [List.forall_mem_map]
    intro s hs
    obtain ⟨r, hr, c, hc, hblock⟩ := mem_presentBlocks.1 hs
    exact (hcut r hr c hc s hblock).batch_eq
  refine ⟨parts, hparts, packBlocks_of_packs hrows hcols
    (fun r hr c hc s hs => ⟨(hcut r hr c hc s hs).middle_eq, (hcut r hr c hc s hs).base_eq⟩)
    hpresent hjoin ⟨rfl, hm, hbase, fun r hr c hc {b i j} hb hi hj => ?_⟩⟩
  obtain ⟨block, hblock, hcut⟩ := hblocks r hr c hc
  rw [hblock]
  change _ = block.entry (block.batch.project b ++ [i, j])
  rw [hcut.batch_eq, Shape.project_of_inBounds hb, hcut.entry_eq hb hi hj]

/-- Blocks are packed along axes of declarations exactly when those on the axes fit
their variables, there is one and their batch shapes broadcast. The matrix then has at every
place the entry of the one pair of variables that covers it, zero where they have no block.
Blocks off the axes do not count, unpacking gives the blocks back, and where both axes have a
variable every matrix is packed from what it is unpacked into. -/
theorem packBlocks_places {rows cols : Axis} (hrows : rows.Formed) (hcols : cols.Formed)
    (blocks : PathMap (PathMap (Tensor α))) :
    ((∃ t, packBlocks rows cols blocks = .ok t) ↔
      BlocksFit rows cols blocks ∧ presentBlocks rows cols blocks ≠ [] ∧ ∃ batch,
        Shape.broadcastAll ((presentBlocks rows cols blocks).map (·.batch)) = .ok batch) ∧
    (∀ t, packBlocks rows cols blocks = .ok t →
      (Shape.broadcastAll ((presentBlocks rows cols blocks).map (·.batch)) = .ok t.batch ∧
        t.middle = [] ∧ t.base = [rows.size, cols.size]) ∧
      (∀ i < rows.size, ∃! r, r ∈ rows.leaves ∧ r.Covers i) ∧
      (∀ j < cols.size, ∃! c, c ∈ cols.leaves ∧ c.Covers j) ∧
      (∀ r ∈ rows.leaves, ∀ c ∈ cols.leaves, ∀ b i j, Shape.InBounds t.batch b →
        r.Covers i → c.Covers j →
        t.entry (b ++ [i, j]) =
          partEntry (blockOf blocks r c) b [i - r.start, j - c.start]) ∧
      ∃ parts, unpackBlocks rows cols t = .ok parts ∧
        (∀ p q, ((parts.get? p).bind (·.get? q)).isSome → p ∈ rows.names ∧ q ∈ cols.names) ∧
        ∀ r ∈ rows.leaves, ∀ c ∈ cols.leaves, ∃ block, blockOf parts r c = some block ∧
          (∀ s, blockOf blocks r c = some s → s.expandBatch t.batch = .ok block) ∧
          (blockOf blocks r c = none → block = zeros t.batch [] [r.storage, c.storage])) ∧
    (∀ others, (∀ r ∈ rows.leaves, ∀ c ∈ cols.leaves, blockOf others r c = blockOf blocks r c) →
      packBlocks rows cols others = packBlocks rows cols blocks) ∧
    (rows.leaves ≠ [] → cols.leaves ≠ [] → ∀ t : Tensor α, t.middle = [] →
      t.base = [rows.size, cols.size] →
      ∃ parts, unpackBlocks rows cols t = .ok parts ∧ packBlocks rows cols parts = .ok t) := by
  have hr := hrows.laid
  have hc := hcols.laid
  refine ⟨packBlocks_isOk_iff hr hc, fun t ht => ?_, fun others => packBlocks_congr hc,
    fun hre hce t hm hbase => packBlocks_unpackBlocks hr hc hre hce hm hbase⟩
  obtain ⟨-, -, batch, hjoin, hpacks⟩ := packs_of_packBlocks hr hc ht
  obtain rfl := hpacks.batch_eq
  refine ⟨⟨Shape.broadcastAll_eq_ok.2 hjoin, hpacks.middle_eq, hpacks.base_eq⟩,
    fun i => hr.existsUnique, fun j => hc.existsUnique, ?_, unpackBlocks_packBlocks hr hc ht⟩
  rintro r hrm c hcm b i j hb ⟨hri, hir⟩ ⟨hcj, hjc⟩
  rw [VariableLayout.stop] at hir hjc
  have hplace := hpacks.entry_eq r hrm c hcm hb (show i - r.start < r.storage by omega)
    (show j - c.start < c.storage by omega)
  rwa [Nat.add_sub_cancel' hri, Nat.add_sub_cancel' hcj] at hplace

def tallPlan : AxisPlan :=
  ((declare "s/b" [] [2]).outcome ((declare "a" [] [1]).outcome AxisPlan.empty).2).2

theorem built_tallPlan : tallPlan.Built := (Built.empty.step (.ofVariable ..)).step (.ofVariable ..)

def flatPlan : AxisPlan := ((declare "u" [] [2]).outcome AxisPlan.empty).2

theorem built_flatPlan : flatPlan.Built := Built.empty.step (.ofVariable ..)

def loneBlock : PathMap (PathMap (Tensor Int)) :=
  .ofList [("s/b", .ofList [("u", ⟨[2], [], [2, 2], #[1, 2, 3, 4, 5, 6, 7, 8], rfl⟩)])]

theorem packBlocks_loneBlock :
    ∃ t, packBlocks tallPlan.freeze flatPlan.freeze loneBlock = .ok t ∧ t.batch = [2] ∧
      t.base = [3, 2] ∧ t.entry [1, 2, 0] = 7 ∧ t.entry [1, 0, 1] = 0 := by
  obtain ⟨hok, hresult, -⟩ :=
    packBlocks_places (.frozen built_tallPlan) (.frozen built_flatPlan) loneBlock
  have hfit : ∀ r ∈ tallPlan.freeze.leaves, ∀ c ∈ flatPlan.freeze.leaves,
      ∀ t ∈ blockOf loneBlock r c, t.middle = [] ∧ t.base = [r.storage, c.storage] := by
    decide +kernel
  have hjoin : Shape.broadcastAll ((presentBlocks tallPlan.freeze flatPlan.freeze loneBlock).map
      (·.batch)) = .ok [2] := by rfl
  have hpresent : presentBlocks tallPlan.freeze flatPlan.freeze loneBlock ≠ [] := by
    intro h
    rw [h] at hjoin
    cases hjoin
  obtain ⟨t, ht⟩ := hok.2 ⟨hfit, hpresent, [2], hjoin⟩
  obtain ⟨⟨hbatch, -, hbase⟩, -, -, hentry, -⟩ := hresult t ht
  rw [hjoin] at hbatch
  have hrows : tallPlan.freeze.leaves = [⟨"a", [], [1], 0⟩, ⟨"s/b", [], [2], 1⟩] := rfl
  have hcols : flatPlan.freeze.leaves = [⟨"u", [], [2], 0⟩] := rfl
  have hin : Shape.InBounds t.batch [1] := by
    rw [← Except.ok.inj hbatch]
    decide
  refine ⟨t, ht, (Except.ok.inj hbatch).symm, hbase, ?_, ?_⟩
  · exact hentry ⟨"s/b", [], [2], 1⟩ (by simp [hrows]) ⟨"u", [], [2], 0⟩ (by simp [hcols]) [1] 2 0
      hin ⟨by decide, by decide⟩ ⟨by decide, by decide⟩
  · exact hentry ⟨"a", [], [1], 0⟩ (by simp [hrows]) ⟨"u", [], [2], 0⟩ (by simp [hcols]) [1] 0 1
      hin ⟨by decide, by decide⟩ ⟨by decide, by decide⟩

end TieredCalculus.Axis
