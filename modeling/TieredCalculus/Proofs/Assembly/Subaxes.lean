import TieredCalculus.Proofs.Assembly.Blocks
import TieredCalculus.Proofs.Assembly.Vectors

/-! # Unpacking by sub-axes

A vector is also cut into the ranges of the sub-axes of its axis, and each piece unpacked along
its sub-axis. The two ways of counting places agree: a variable of a sub-axis has its window in
the piece at its own start, and the piece lies in the vector at the start of the sub-axis. The
parts are therefore those that the vector itself is unpacked into below the sub-axis, and so for
the blocks of a matrix.
-/

namespace TieredCalculus

def PathMap.below {β : Type} (m : PathMap β) (p : Path) : PathMap β := m.filterKeys (·.isUnder p)

namespace Tensor

variable {α : Type} [Zero α] {t slice part : Tensor α} {batch middle pre post : Shape}

theorem Window.within {start first m n : Nat} (h : Window slice batch middle pre first n post part)
    (hslice : Window t batch middle pre start m post slice) (hn : first + n ≤ m) :
    Window t batch middle pre (first + start) n post part := by
  refine ⟨h.toSlab, fun {a c j} ha hj hc => ?_⟩
  have hplace : start + (first + j) = first + start + j := by omega
  rw [h.entry_eq ha hj hc, hslice.entry_eq ha (by omega) hc, hplace]

end Tensor

namespace Axis

open Tensor AxisPlan

/-! ## Parts below a sub-axis -/

section Below

variable {β : Type} {a : Axis} {s : String × Nat × Axis}

theorem Formed.shift_mem_leaves (h : a.Formed) (hs : s ∈ a.subaxes) {w : VariableLayout}
    (hw : w ∈ s.2.2.leaves) : w.shift s.2.1 ∈ a.leaves := by
  rw [h.level.leaves_eq]
  exact List.mem_append_right _ (List.mem_flatMap.2 ⟨s, hs, List.mem_map_of_mem hw⟩)

theorem Formed.mem_names_iff (h : a.Formed) (hs : s ∈ a.subaxes) {p : Path} :
    p ∈ s.2.2.names ↔ p ∈ a.names ∧ p.isUnder (a.qualify s.1) = true := by
  have hnames : s.2.2.names = a.names.filter (·.isUnder (a.qualify s.1)) := by
    calc s.2.2.names = (placedLeaves s).map (·.name) := by
          rw [placedLeaves, List.map_map]
          rfl
      _ = a.names.filter (·.isUnder (a.qualify s.1)) := by
          rw [← h.filter_isUnder hs, h.level.subaxes_path s hs, names, List.filter_map]
          rfl
  rw [hnames, List.mem_filter]

theorem Formed.below_eq (h : a.Formed) (hs : s ∈ a.subaxes) {parts subparts : PathMap β}
    (hparts : ∀ p, (parts.get? p).isSome → p ∈ a.names)
    (hsubparts : ∀ p, (subparts.get? p).isSome → p ∈ s.2.2.names)
    (hsame : ∀ w ∈ s.2.2.leaves, subparts.get? w.name = parts.get? w.name) :
    subparts = parts.below (a.qualify s.1) := by
  refine PathMap.ext_get? fun p => ?_
  rw [PathMap.below, PathMap.get?_filterKeys]
  by_cases hp : p ∈ s.2.2.names
  · rw [if_pos ((h.mem_names_iff hs).1 hp).2]
    obtain ⟨w, hw, rfl⟩ := List.mem_map.1 hp
    exact hsame w hw
  · have hnone : subparts.get? p = none := by
      rw [← Option.not_isSome_iff_eq_none]
      exact fun hsome => hp (hsubparts p hsome)
    rw [hnone]
    by_cases hunder : p.isUnder (a.qualify s.1) = true
    · rw [if_pos hunder, eq_comm, ← Option.not_isSome_iff_eq_none]
      exact fun hsome => hp ((h.mem_names_iff hs).2 ⟨hparts p hsome, hunder⟩)
    · rw [if_neg hunder]

theorem Level.nodup_qualified (h : a.Level) : (a.subaxisNames.map a.qualify).Nodup := by
  have hlasts : (a.subaxisNames.map a.qualify).map Path.last = a.subaxisNames := by
    rw [List.map_map, subaxisNames, List.map_map]
    exact List.map_congr_left fun s hs => Path.last_join a.path (h.subaxes_name s hs)
  refine .of_map Path.last ?_
  rw [hlasts]
  exact h.nodup_subaxisNames

theorem names_whole (a : Axis) :
    (a.subaxes.map a.whole).map (·.name) = a.subaxisNames.map a.qualify := by
  rw [List.map_map, subaxisNames, List.map_map]
  rfl

/-- What is computed from the range of each sub-axis is found under the name of the sub-axis,
and nothing else is. -/
theorem Level.exists_ofSubaxes (h : a.Level)
    {f : String → Nat × Nat → Except TensorError (Path × β)} {R : VariableLayout → β → Prop}
    (hf : ∀ s ∈ a.subaxes, ∃ x,
      f s.1 (s.2.1, s.2.1 + s.2.2.size) = .ok (a.qualify s.1, x) ∧ R (a.whole s) x) :
    ∃ entries, (a.subaxisNames.mapM fun name => a.subaxisRange name >>= f name) = .ok entries ∧
      (PathMap.ofList entries).keys.Perm (a.subaxisNames.map a.qualify) ∧
      ∀ s ∈ a.subaxes, ∃ x, (PathMap.ofList entries).get? (a.qualify s.1) = some x ∧
        R (a.whole s) x := by
  have hpaired : List.Forall₂ (fun v name => ∃ s ∈ a.subaxes, v = a.whole s ∧ name = s.1)
      (a.subaxes.map a.whole) a.subaxisNames := by
    rw [subaxisNames, List.forall₂_map_left_iff, List.forall₂_map_right_iff, List.forall₂_same]
    exact fun s hs => ⟨s, hs, rfl, rfl⟩
  obtain ⟨entries, hentries, hfound⟩ : ∃ entries,
      (a.subaxisNames.mapM fun name => a.subaxisRange name >>= f name) = .ok entries ∧
      List.Forall₂ (fun v e => e.1 = v.name ∧ R v e.2) (a.subaxes.map a.whole) entries := by
    refine Update.except_mapM_forall₂ hpaired ?_
    rintro v name ⟨s, hs, rfl, rfl⟩
    obtain ⟨x, hx, hR⟩ := hf s hs
    rw [h.subaxisRange_of_mem hs]
    exact ⟨_, hx, rfl, hR⟩
  have hdistinct : ((a.subaxes.map a.whole).map (·.name)).Nodup := by
    rw [names_whole]
    exact h.nodup_qualified
  have hlookup : ∀ s ∈ a.subaxes, ∃ x,
      (PathMap.ofList entries).get? (a.qualify s.1) = some x ∧ R (a.whole s) x := fun s hs =>
    get?_ofList_of_forall₂ hdistinct hfound (List.mem_map_of_mem hs)
  refine ⟨entries, hentries, ?_, hlookup⟩
  rw [List.perm_ext_iff_of_nodup (PathMap.nodup_keys _) h.nodup_qualified]
  intro p
  rw [PathMap.mem_keys]
  constructor
  · intro hp
    rw [← names_whole]
    exact mem_names_of_get?_ofList hfound hp
  · intro hp
    rw [subaxisNames, List.map_map] at hp
    obtain ⟨s, hs, rfl⟩ := List.mem_map.1 hp
    obtain ⟨x, hx, -⟩ := hlookup s hs
    exact Option.isSome_of_eq_some hx

end Below

variable {α : Type} [Zero α]

/-! ## Vectors -/

section Vectors

variable {axis : Axis} {t : Tensor α}

theorem exists_unpackSubaxes (haxis : axis.Level) (hm : t.middle = [])
    (hbase : t.base = [axis.size]) :
    ∃ subs, axis.unpackSubaxes t = .ok subs ∧
      subs.keys.Perm (axis.subaxisNames.map axis.qualify) ∧
      ∀ s ∈ axis.subaxes, ∃ piece, subs.get? (axis.qualify s.1) = some piece ∧
        Window t t.batch [] [] (axis.whole s).start (axis.whole s).storage [] piece := by
  have hslab : Slab t.batch [] [] axis.size [] t := ⟨rfl, hm, hbase⟩
  have hcut : ∀ s ∈ axis.subaxes, ∃ piece,
      (t.slice 0 s.2.1 (s.2.1 + s.2.2.size) >>= fun piece => pure (axis.qualify s.1, piece)) =
        .ok (axis.qualify s.1, piece) ∧
      Window t t.batch [] [] (axis.whole s).start (axis.whole s).storage [] piece := by
    intro s hs
    obtain ⟨piece, hpiece, hwindow⟩ := hslab.slice (haxis.stop_le hs)
    rw [storage_whole]
    exact ⟨piece, Update.except_bind_eq_ok.2 ⟨piece, hpiece, rfl⟩, hwindow⟩
  obtain ⟨entries, hentries, hkeys, hfound⟩ := haxis.exists_ofSubaxes
    (f := fun name range => t.slice 0 range.1 range.2 >>= fun piece =>
      pure (axis.qualify name, piece))
    (R := fun v piece => Window t t.batch [] [] v.start v.storage [] piece) hcut
  refine ⟨.ofList entries, ?_, hkeys, hfound⟩
  unfold unpackSubaxes
  exact Update.except_bind_eq_ok.2 ⟨(), checkPart_eq_ok.2 ⟨hm, hbase⟩,
    Update.except_bind_eq_ok.2 ⟨entries, hentries, rfl⟩⟩

/-- A piece of a vector is unpacked along its sub-axis into the parts of the vector below it. -/
theorem unpack_piece (haxis : axis.Formed) {parts : PathMap (Tensor α)}
    (hparts : axis.unpack t = .ok parts) {s : String × Nat × Axis} (hs : s ∈ axis.subaxes)
    {piece : Tensor α}
    (hpiece : Window t t.batch [] [] (axis.whole s).start (axis.whole s).storage [] piece) :
    s.2.2.unpack piece = .ok (parts.below (axis.qualify s.1)) := by
  obtain ⟨hm, hbase⟩ := unpack_fits hparts
  have hsub := (haxis.of_mem hs).laid
  rw [storage_whole] at hpiece
  obtain ⟨found, hfound, hnames, hwindows⟩ := exists_unpack haxis.laid hm hbase
  obtain ⟨subparts, hsubparts, hsubnames, hsubwindows⟩ :=
    exists_unpack hsub hpiece.middle_eq hpiece.base_eq
  rw [hparts] at hfound
  cases hfound
  rw [hsubparts, haxis.below_eq hs hnames hsubnames fun w hw => ?_]
  obtain ⟨part, hpart, hwindow⟩ := hwindows _ (haxis.shift_mem_leaves hs hw)
  obtain ⟨subpart, hsubpart, hsubwindow⟩ := hsubwindows w hw
  rw [hpiece.batch_eq] at hsubwindow
  rw [hsubpart, (hsubwindow.within hpiece (hsub.stop_le hw)).unique hwindow]
  exact hpart.symm

end Vectors

/-! ## Matrices -/

section Matrices

variable {rows cols : Axis} {t : Tensor α}

theorem IsBlock.unique {r c : VariableLayout} {block block' : Tensor α} (h : IsBlock t r c block)
    (h' : IsBlock t r c block') : block = block' := by
  refine ext_entry (h.batch_eq.trans h'.batch_eq.symm) (h.middle_eq.trans h'.middle_eq.symm)
    (h.base_eq.trans h'.base_eq.symm) fun idx hidx => ?_
  rw [shape, h.batch_eq, h.middle_eq, h.base_eq] at hidx
  obtain ⟨b, i, j, rfl, hb, hi, hj⟩ := exists_row_col_of_inBounds hidx
  rw [h.entry_eq hb hi hj, h'.entry_eq hb hi hj]

theorem IsBlock.within {r c r' c' : VariableLayout} {block part : Tensor α}
    (h : IsBlock block r' c' part) (hblock : IsBlock t r c block) (hr : r'.stop ≤ r.storage)
    (hc : c'.stop ≤ c.storage) : IsBlock t (r'.shift r.start) (c'.shift c.start) part := by
  refine ⟨h.batch_eq.trans hblock.batch_eq, h.middle_eq, h.base_eq, fun {b i j} hb hi hj => ?_⟩
  have hin : Shape.InBounds block.batch b := hblock.batch_eq ▸ hb
  have hi' : r'.start + i < r.storage := Nat.lt_of_lt_of_le (Nat.add_lt_add_left hi _) hr
  have hj' : c'.start + j < c.storage := Nat.lt_of_lt_of_le (Nat.add_lt_add_left hj _) hc
  have hrow : r.start + (r'.start + i) = r'.start + r.start + i := by omega
  have hcol : c.start + (c'.start + j) = c'.start + c.start + j := by omega
  rw [h.entry_eq hin hi hj, hblock.entry_eq hb hi' hj', hrow, hcol]
  rfl

/-- The row has a block for each sub-axis of the columns, and no others. -/
structure IsSubaxisRow (t : Tensor α) (cols : Axis) (r : VariableLayout)
    (row : PathMap (Tensor α)) : Prop where
  keys_perm : row.keys.Perm (cols.subaxisNames.map cols.qualify)
  blocks : ∀ c ∈ cols.subaxes, ∃ block, row.get? (cols.qualify c.1) = some block ∧
    IsBlock t r (cols.whole c) block

theorem exists_cutStrip (hcols : cols.Level) {strip : Tensor α} {r : VariableLayout}
    (hstrip : Window t t.batch [] [] r.start r.storage [cols.size] strip) :
    ∃ entries, (cols.subaxisNames.mapM (m := Except TensorError) fun name => do
        let (start, stop) ← cols.subaxisRange name
        return (cols.qualify name, ← strip.slice 1 start stop)) = .ok entries ∧
      IsSubaxisRow t cols r (.ofList entries) := by
  have hslab : Slab t.batch [] [r.storage] cols.size [] strip :=
    ⟨hstrip.batch_eq, hstrip.middle_eq, hstrip.base_eq⟩
  have hcut : ∀ c ∈ cols.subaxes, ∃ block,
      (strip.slice 1 c.2.1 (c.2.1 + c.2.2.size) >>= fun block =>
        pure (cols.qualify c.1, block)) = .ok (cols.qualify c.1, block) ∧
      IsBlock t r (cols.whole c) block := by
    intro c hc
    obtain ⟨block, hblock, hwindow⟩ := hslab.slice (hcols.stop_le hc)
    have hstop := hcols.stop_le hc
    rw [← storage_whole cols c] at hwindow hstop
    exact ⟨block, Update.except_bind_eq_ok.2 ⟨block, hblock, rfl⟩,
      .of_windows hstrip hwindow hstop⟩
  obtain ⟨entries, hentries, hkeys, hfound⟩ := hcols.exists_ofSubaxes
    (f := fun name range => strip.slice 1 range.1 range.2 >>= fun block =>
      pure (cols.qualify name, block)) hcut
  exact ⟨entries, hentries, hkeys, hfound⟩

theorem exists_unpackSubaxisBlocks (hrows : rows.Level) (hcols : cols.Level) (hm : t.middle = [])
    (hbase : t.base = [rows.size, cols.size]) :
    ∃ subs, unpackSubaxisBlocks rows cols t = .ok subs ∧
      subs.keys.Perm (rows.subaxisNames.map rows.qualify) ∧
      ∀ r ∈ rows.subaxes, ∃ row, subs.get? (rows.qualify r.1) = some row ∧
        IsSubaxisRow t cols (rows.whole r) row := by
  have hslab : Slab t.batch [] [] rows.size [cols.size] t := ⟨rfl, hm, hbase⟩
  have hcut : ∀ r ∈ rows.subaxes, ∃ row,
      (do
        let strip ← t.slice 0 r.2.1 (r.2.1 + r.2.2.size)
        let blocks ← cols.subaxisNames.mapM fun name => do
          let (start, stop) ← cols.subaxisRange name
          return (cols.qualify name, ← strip.slice 1 start stop)
        return (rows.qualify r.1, PathMap.ofList blocks) :
          Except TensorError (Path × PathMap (Tensor α))) = .ok (rows.qualify r.1, row) ∧
      IsSubaxisRow t cols (rows.whole r) row := by
    intro r hr
    obtain ⟨strip, hstrip, hwindow⟩ := hslab.slice (hrows.stop_le hr)
    rw [← storage_whole rows r] at hwindow
    obtain ⟨entries, hentries, hrow⟩ : ∃ entries, _ ∧
      IsSubaxisRow t cols (rows.whole r) (.ofList entries) := exists_cutStrip hcols hwindow
    exact ⟨_, Update.except_bind_eq_ok.2 ⟨strip, hstrip,
      Update.except_bind_eq_ok.2 ⟨entries, hentries, rfl⟩⟩, hrow⟩
  obtain ⟨entries, hentries, hkeys, hfound⟩ := hrows.exists_ofSubaxes
    (f := fun name range => do
      let strip ← t.slice 0 range.1 range.2
      let blocks ← cols.subaxisNames.mapM fun name => do
        let (start, stop) ← cols.subaxisRange name
        return (cols.qualify name, ← strip.slice 1 start stop)
      return (rows.qualify name, PathMap.ofList blocks)) hcut
  refine ⟨.ofList entries, ?_, hkeys, hfound⟩
  unfold unpackSubaxisBlocks
  exact Update.except_bind_eq_ok.2 ⟨(), checkPart_eq_ok.2 ⟨hm, hbase⟩,
    Update.except_bind_eq_ok.2 ⟨entries, hentries, rfl⟩⟩

theorem IsRow.below_eq (hcols : cols.Formed) {c : String × Nat × Axis} (hc : c ∈ cols.subaxes)
    {r w : VariableLayout} {piece : Tensor α} (hpiece : IsBlock t r (cols.whole c) piece)
    (hw : w.stop ≤ r.storage) {row subrow : PathMap (Tensor α)}
    (hrow : IsRow t cols (w.shift r.start) row) (hsubrow : IsRow piece c.2.2 w subrow) :
    subrow = row.below (cols.qualify c.1) := by
  refine hcols.below_eq hc (fun _ => hrow.names) (fun _ => hsubrow.names) fun v hv => ?_
  obtain ⟨block, hblock, hcut⟩ := hrow.blocks _ (hcols.shift_mem_leaves hc hv)
  obtain ⟨subblock, hsubblock, hsubcut⟩ := hsubrow.blocks v hv
  have hstop : v.stop ≤ (cols.whole c).storage := by
    rw [storage_whole]
    exact (hcols.of_mem hc).laid.stop_le hv
  rw [hsubblock, (hsubcut.within hpiece hw hstop).unique hcut]
  exact hblock.symm

theorem unpackBlocks_piece (hrows : rows.Formed) (hcols : cols.Formed) (hm : t.middle = [])
    (hbase : t.base = [rows.size, cols.size]) {parts : PathMap (PathMap (Tensor α))}
    (hparts : unpackBlocks rows cols t = .ok parts) {r c : String × Nat × Axis}
    (hr : r ∈ rows.subaxes) (hc : c ∈ cols.subaxes) {piece : Tensor α}
    (hpiece : IsBlock t (rows.whole r) (cols.whole c) piece) :
    unpackBlocks r.2.2 c.2.2 piece =
      .ok ((parts.map (·.below (cols.qualify c.1))).below (rows.qualify r.1)) := by
  have hsubrows := (hrows.of_mem hr).laid
  have hpieceBase : piece.base = [r.2.2.size, c.2.2.size] := by
    rw [hpiece.base_eq, storage_whole, storage_whole]
  obtain ⟨found, hfound, hnames, hfoundRows⟩ := exists_unpackRows hrows.laid hcols.laid hm hbase
  obtain ⟨subparts, hsubparts, hsubnames, hsubfound⟩ :=
    exists_unpackRows hsubrows (hcols.of_mem hc).laid hpiece.middle_eq hpieceBase
  rw [hparts] at hfound
  cases hfound
  have hmapped : ∀ p, ((parts.map (·.below (cols.qualify c.1))).get? p).isSome →
      p ∈ rows.names := by
    intro p hp
    rw [PathMap.get?_map, Option.isSome_map] at hp
    exact hnames p hp
  rw [hsubparts, hrows.below_eq hr hmapped hsubnames fun w hw => ?_]
  obtain ⟨row, hrow, hrowOf⟩ := hfoundRows _ (hrows.shift_mem_leaves hr hw)
  obtain ⟨subrow, hsubrow, hsubrowOf⟩ := hsubfound w hw
  rw [VariableLayout.name_shift] at hrow
  have hstop : w.stop ≤ (rows.whole r).storage := by
    rw [storage_whole]
    exact hsubrows.stop_le hw
  rw [hsubrow, PathMap.get?_map, hrow, Option.map_some,
    IsRow.below_eq hcols hc hpiece hstop hrowOf hsubrowOf]

end Matrices

/-- Along axes of declarations, cutting a vector by sub-axes gives one piece for each of them,
and unpacking a piece along its sub-axis gives the parts of the vector below the sub-axis, under
the same names. Every place of the vector lies in the range of one sub-axis, whose piece has its
entry, or of one variable outside all sub-axes, whose part has it. In the same way a matrix is
cut into one block for each pair of sub-axes, which is unpacked along the two into the blocks of
the matrix below both. -/
theorem unpackSubaxes_refines {rows cols : Axis} (hrows : rows.Formed) (hcols : cols.Formed) :
    (rows.subaxisNames.map rows.qualify).Nodup ∧
    (∀ i < rows.size, ∃! v, v ∈ rows.outline ∧ v.Covers i) ∧
    (∀ t : Tensor α, t.middle = [] → t.base = [rows.size] →
      ∃ parts subs, rows.unpack t = .ok parts ∧ rows.unpackSubaxes t = .ok subs ∧
        subs.keys.Perm (rows.subaxisNames.map rows.qualify) ∧
        (∀ s ∈ rows.subaxes, ∃ piece, rows.subaxis s.1 = .ok s.2.2 ∧
          subs.get? (rows.qualify s.1) = some piece ∧
          Window t t.batch [] [] (rows.whole s).start (rows.whole s).storage [] piece ∧
          s.2.2.unpack piece = .ok (parts.below (rows.qualify s.1))) ∧
        ∀ v ∈ rows.locals, ∃ part, parts.get? v.name = some part ∧
          Window t t.batch [] [] v.start v.storage [] part) ∧
    (∀ t : Tensor α, t.middle = [] → t.base = [rows.size, cols.size] →
      ∃ parts subs, unpackBlocks rows cols t = .ok parts ∧
        unpackSubaxisBlocks rows cols t = .ok subs ∧
        subs.keys.Perm (rows.subaxisNames.map rows.qualify) ∧
        (∀ r ∈ rows.subaxes, ∃ row, subs.get? (rows.qualify r.1) = some row ∧
          row.keys.Perm (cols.subaxisNames.map cols.qualify) ∧
          ∀ c ∈ cols.subaxes, ∃ piece, rows.subaxis r.1 = .ok r.2.2 ∧
            cols.subaxis c.1 = .ok c.2.2 ∧ row.get? (cols.qualify c.1) = some piece ∧
            IsBlock t (rows.whole r) (cols.whole c) piece ∧
            unpackBlocks r.2.2 c.2.2 piece =
              .ok ((parts.map (·.below (cols.qualify c.1))).below (rows.qualify r.1))) ∧
        ∀ r ∈ rows.leaves, ∀ c ∈ cols.leaves, ∃ block, blockOf parts r c = some block ∧
          IsBlock t r c block) := by
  have hr := hrows.level
  have hc := hcols.level
  refine ⟨hr.nodup_qualified, fun i => hr.existsUnique, fun t hm hbase => ?_,
    fun t hm hbase => ?_⟩
  · obtain ⟨parts, hparts, -, hwindows⟩ := exists_unpack hrows.laid hm hbase
    obtain ⟨subs, hsubs, hkeys, hpieces⟩ := exists_unpackSubaxes hr hm hbase
    refine ⟨parts, subs, hparts, hsubs, hkeys, fun s hs => ?_,
      fun v hv => hwindows v (List.mem_of_mem_filter hv)⟩
    obtain ⟨piece, hpiece, hwindow⟩ := hpieces s hs
    exact ⟨piece, hr.subaxis_of_mem hs, hpiece, hwindow, unpack_piece hrows hparts hs hwindow⟩
  · obtain ⟨parts, hparts, -, hblocks⟩ := exists_unpackBlocks hrows.laid hcols.laid hm hbase
    obtain ⟨subs, hsubs, hkeys, hsubrows⟩ := exists_unpackSubaxisBlocks hr hc hm hbase
    refine ⟨parts, subs, hparts, hsubs, hkeys, fun r hrm => ?_, hblocks⟩
    obtain ⟨row, hrow, hpieces⟩ := hsubrows r hrm
    refine ⟨row, hrow, hpieces.keys_perm, fun c hcm => ?_⟩
    obtain ⟨piece, hpiece, hblock⟩ := hpieces.blocks c hcm
    exact ⟨piece, hr.subaxis_of_mem hrm, hc.subaxis_of_mem hcm, hpiece, hblock,
      unpackBlocks_piece hrows hcols hm hbase hparts hrm hcm hblock⟩

def sixPlaces : Tensor Int := ⟨[], [], [6], #[1, 2, 3, 4, 5, 6], rfl⟩

theorem unpackSubaxes_sixPlaces :
    ∃ parts subs piece sub, nestedPlan.freeze.unpack sixPlaces = .ok parts ∧
      nestedPlan.freeze.unpackSubaxes sixPlaces = .ok subs ∧
      nestedPlan.freeze.subaxis "m" = .ok sub ∧ subs.get? "m" = some piece ∧
      piece.entry [3] = 5 ∧ sub.unpack piece = .ok (parts.below "m") := by
  have hformed : nestedPlan.freeze.Formed := .frozen built_nestedPlan
  obtain ⟨-, -, hvectors, -⟩ := @unpackSubaxes_refines Int _ _ _ hformed hformed
  obtain ⟨parts, subs, hparts, hsubs, -, hpieces, -⟩ := hvectors sixPlaces rfl rfl
  have hsubaxes : nestedPlan.freeze.subaxes = [("m", 1, ⟨"m", [⟨"m/a", [3], [], 0⟩,
      ⟨"m/s/x", [], [2], 3⟩], [("s", 3, ⟨"m/s", [⟨"m/s/x", [], [2], 0⟩], []⟩)]⟩)] := rfl
  rw [hsubaxes] at hpieces
  obtain ⟨piece, hsub, hpiece, hwindow, hunpack⟩ := hpieces _ (List.mem_singleton_self _)
  refine ⟨parts, subs, piece, _, hparts, hsubs, hsub, hpiece, ?_, hunpack⟩
  exact hwindow.entry_eq (a := []) (c := []) (j := 3) trivial (by decide) trivial

end Axis

end TieredCalculus
