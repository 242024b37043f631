import TieredCalculus.Linear.Batched
import TieredCalculus.Proofs.Tensor.Entrywise
import TieredCalculus.Solve.Tolerances

/-! # Runs of packed tensors

The algorithms read a packed tensor as one run of entries per batch entry, numbered by the
place of the entry in the batch. A run is followed through expansions by the index of its
batch entry, read in any larger batch.
-/

namespace TieredCalculus

def numberOf {α : Type} (v : Vector α 1) : α := v.get 0

namespace Tensor

variable {α : Type} [Zero α]

/-- The run of the batch entry that is read at index `b` of a larger batch. -/
def runAt (t : Tensor α) (n : Nat) (b : Index) : Vector α n :=
  t.vectorRun n (t.batch.offset (t.batch.project b))

/-- The matrix of the batch entry that is read at index `b` of a larger batch. -/
def squareAt (t : Tensor α) (n : Nat) (b : Index) : Square α n :=
  t.squareRun n (t.batch.offset (t.batch.project b))

/-- The tensor holds one vector of `n` numbers per batch entry. -/
def Packed (t : Tensor α) (n : Nat) : Prop := t.middle = [] ∧ t.base = [n]

/-- The tensor holds one square matrix of `n` rows per batch entry. -/
def PackedSquare (t : Tensor α) (n : Nat) : Prop := t.middle = [] ∧ t.base = [n, n]

omit [Zero α] in
theorem Packed.size_data {t : Tensor α} {n : Nat} (h : t.Packed n) :
    t.data.size = t.batch.numel * n := by
  rw [t.size_data, h.1, h.2, List.append_nil, Shape.numel_append]
  simp

omit [Zero α] in
theorem Packed.baseNumel_eq {t : Tensor α} {n : Nat} (h : t.Packed n) : t.baseNumel = n := by
  unfold baseNumel
  rw [h.2]
  simp

theorem runAt_of_inBounds (t : Tensor α) (n : Nat) {b : Index} (hb : Shape.InBounds t.batch b) :
    t.runAt n b = t.vectorRun n (t.batch.offset b) := by
  rw [runAt, Shape.project_of_inBounds hb]

theorem squareAt_of_inBounds (t : Tensor α) (n : Nat) {b : Index}
    (hb : Shape.InBounds t.batch b) : t.squareAt n b = t.squareRun n (t.batch.offset b) := by
  rw [squareAt, Shape.project_of_inBounds hb]

theorem runAt_zeros (batch middle base : Shape) (n : Nat) (b : Index) :
    (zeros batch middle base : Tensor α).runAt n b = .replicate n 0 := by
  apply Vector.ext
  intro i hi
  rw [Vector.getElem_replicate]
  refine (get_ofFn _ ⟨i, hi⟩).trans ?_
  simp only [zeros, full, Array.getElem?_replicate]
  split <;> rfl

theorem Packed.runAt_get {t : Tensor α} {n : Nat} (h : t.Packed n) (b : Index) (i : Fin n) :
    (t.runAt n b).get i = t.cell (t.batch.project b) [] i := by
  unfold runAt vectorRun cell
  rw [get_ofFn, h.1, h.2]
  simp

theorem PackedSquare.squareAt_apply {t : Tensor α} {n : Nat} (h : t.PackedSquare n) (b : Index)
    (i j : Fin n) : t.squareAt n b i j = t.cell (t.batch.project b) [] (i * n + j) := by
  unfold squareAt squareRun cell
  rw [Square.ofFn_apply, h.1, h.2]
  simp [Nat.add_mul, Nat.mul_assoc, Nat.add_assoc]

/-! ## Expansion -/

theorem expandBatch_view {t w : Tensor α} {batch : Shape} (h : t.expandBatch batch = .ok w) :
    t.batch.expandsTo batch = true ∧ w.View batch t.middle t.base fun b m k =>
      t.cell (t.batch.project b) (t.middle.project m) k := by
  obtain ⟨hb, -, -⟩ := expandLeading_eq_ok.1 h
  obtain ⟨r, hr, hv⟩ := t.view_self.expandLeading hb (Shape.expandsTo_refl t.middle)
  rw [expandBatch, hr] at h
  cases h
  exact ⟨hb, hv⟩

theorem entry_of_expandBatch {t w : Tensor α} {batch : Shape} (h : t.expandBatch batch = .ok w)
    (hm : t.middle = []) {b e : Index} (hb : Shape.InBounds batch b)
    (he : Shape.InBounds t.base e) : w.entry (b ++ e) = t.entry (t.batch.project b ++ e) := by
  obtain ⟨hexp, hv⟩ := expandBatch_view h
  have hproject : (t.batch.project b).length = t.batch.length :=
    (Shape.project_inBounds hexp hb).length_eq
  rw [hm] at hv
  have hread := hv.entry_eq (m := []) hb trivial he
  have hcell := entry_eq_cell t (m := []) e hproject (by rw [hm])
  rw [List.append_nil] at hread hcell
  rw [hread, hcell]
  rfl

theorem entry_matrix {t : Tensor α} {n m : Nat} (hm : t.middle = []) (hbase : t.base = [n, m])
    {b : Index} (hb : b.length = t.batch.length) (i j : Nat) :
    t.entry (b ++ [i, j]) = t.data[(t.batch.offset b * n + i) * m + j]?.getD 0 := by
  have hentry := entry_eq_cell t (m := []) [i, j] hb (by rw [hm])
  rw [List.append_nil] at hentry
  rw [hentry, cell, hm, hbase]
  simp [Nat.add_mul, Nat.mul_assoc, Nat.add_assoc]

theorem PackedSquare.squareAt_eq_entry {t : Tensor α} {n : Nat} (h : t.PackedSquare n)
    {b : Index} (hb : t.batch.length ≤ b.length) (i j : Fin n) :
    t.squareAt n b i j = t.entry (t.batch.project b ++ [i.val, j.val]) := by
  rw [entry_matrix h.1 h.2 (Shape.length_project hb)]
  unfold squareAt squareRun
  rw [Square.ofFn_apply]

private theorem cell_of_expandBatch {t w : Tensor α} {batch larger : Shape}
    (h : t.expandBatch batch = .ok w) (hm : t.middle = []) (hlarger : batch.expandsTo larger = true)
    {b : Index} (hb : Shape.InBounds larger b) {k : Nat} (hk : k < t.base.numel) :
    w.cell (w.batch.project b) [] k = t.cell (t.batch.project b) [] k := by
  obtain ⟨hexp, hv⟩ := expandBatch_view h
  have hlen : batch.length ≤ b.length := by
    rw [hb.length_eq]
    exact Shape.expandsTo_length hlarger
  have hin : Shape.InBounds t.middle [] := by
    rw [hm]
    trivial
  rw [hv.batch_eq, hv.cell_eq (Shape.project_inBounds hlarger hb) hin hk,
    Shape.project_project hexp hlen, hm]
  rfl

theorem expandBatch_isOk {t : Tensor α} {batch : Shape} (h : t.batch.expandsTo batch = true) :
    ∃ w, t.expandBatch batch = .ok w :=
  ⟨_, expandLeading_eq_ok.2 ⟨h, Shape.expandsTo_refl t.middle, rfl⟩⟩

theorem expandBatch_of_batch_eq {t : Tensor α} {batch : Shape} (h : t.batch = batch) :
    ∃ w, t.expandBatch batch = .ok w :=
  expandBatch_isOk (h ▸ Shape.expandsTo_refl t.batch)

theorem Packed.expandBatch {t w : Tensor α} {batch : Shape} {n : Nat} (ht : t.Packed n)
    (h : t.expandBatch batch = .ok w) :
    t.batch.expandsTo batch = true ∧ w.batch = batch ∧ w.Packed n ∧
      ∀ {larger : Shape} {b : Index}, batch.expandsTo larger = true →
        Shape.InBounds larger b → w.runAt n b = t.runAt n b := by
  obtain ⟨hexp, hv⟩ := expandBatch_view h
  have hw : w.Packed n := ⟨hv.middle_eq.trans ht.1, hv.base_eq.trans ht.2⟩
  refine ⟨hexp, hv.batch_eq, hw, fun {larger b} hlarger hb => ?_⟩
  apply Vector.ext
  intro i hi
  show (w.runAt n b).get ⟨i, hi⟩ = (t.runAt n b).get ⟨i, hi⟩
  rw [hw.runAt_get, ht.runAt_get]
  apply cell_of_expandBatch h ht.1 hlarger hb
  rw [ht.2]
  simpa using hi

theorem Packed.number_expandBatch {t w : Tensor α} {batch : Shape} (ht : t.Packed 1)
    (h : t.expandBatch batch = .ok w) {b : Index} (hb : Shape.InBounds batch b) :
    w.data[batch.offset b]?.getD 0 = numberOf (t.runAt 1 b) := by
  obtain ⟨-, hwb, -, hrun⟩ := ht.expandBatch h
  rw [← hrun (Shape.expandsTo_refl batch) hb, runAt_of_inBounds w 1 (hwb ▸ hb), hwb, vectorRun,
    numberOf, get_ofFn]
  simp

theorem PackedSquare.expandBatch {t w : Tensor α} {batch : Shape} {n : Nat}
    (ht : t.PackedSquare n) (h : t.expandBatch batch = .ok w) :
    t.batch.expandsTo batch = true ∧ w.batch = batch ∧ w.PackedSquare n ∧
      ∀ {larger : Shape} {b : Index}, batch.expandsTo larger = true →
        Shape.InBounds larger b → w.squareAt n b = t.squareAt n b := by
  obtain ⟨hexp, hv⟩ := expandBatch_view h
  have hw : w.PackedSquare n := ⟨hv.middle_eq.trans ht.1, hv.base_eq.trans ht.2⟩
  refine ⟨hexp, hv.batch_eq, hw, fun {larger b} hlarger hb => ?_⟩
  apply Square.ext
  intro i j
  rw [hw.squareAt_apply, ht.squareAt_apply]
  apply cell_of_expandBatch h ht.1 hlarger hb
  have hrow := Nat.mul_le_mul_right n (Nat.succ_le_of_lt i.isLt)
  rw [Nat.succ_mul] at hrow
  rw [ht.2]
  simp
  omega

theorem runAt_project {t : Tensor α} {n : Nat} {batch : Shape} {b : Index}
    (h : t.batch.expandsTo batch = true) (hb : batch.length ≤ b.length) :
    t.runAt n (batch.project b) = t.runAt n b := by
  unfold runAt
  rw [Shape.project_project h hb]

theorem squareAt_project {t : Tensor α} {n : Nat} {batch : Shape} {b : Index}
    (h : t.batch.expandsTo batch = true) (hb : batch.length ≤ b.length) :
    t.squareAt n (batch.project b) = t.squareAt n b := by
  unfold squareAt
  rw [Shape.project_project h hb]

/-! ## Entrywise operations -/

/-- Packed tensors are combined exactly when their batches broadcast, entry by entry. -/
theorem Packed.zipWith {s t : Tensor α} {n : Nat} (f : α → α → α) (hs : s.Packed n)
    (ht : t.Packed n) :
    (∀ {w : Tensor α}, zipWith f s t = .ok w →
      Shape.broadcast s.batch t.batch = .ok w.batch ∧ w.Packed n ∧
        ∀ {b : Index}, Shape.InBounds w.batch b →
          w.runAt n b = Vector.zipWith f (s.runAt n b) (t.runAt n b)) ∧
    ∀ {batch : Shape}, Shape.broadcast s.batch t.batch = .ok batch →
      ∃ w, zipWith f s t = .ok w := by
  have hbase : s.base = t.base := hs.2.trans ht.2.symm
  have hjoin : ∀ {batch middle}, Join [s, t] batch middle ↔
      Shape.broadcast s.batch t.batch = .ok batch ∧ middle = [] := by
    intro batch middle
    have hmiddle : Shape.broadcastAll [s.middle, t.middle] = .ok [] := by
      rw [hs.1, ht.1]
      rfl
    rw [← Shape.broadcastAll_pair]
    constructor
    · rintro ⟨hb, hm⟩
      exact ⟨hb, Except.ok.inj (hm.symm.trans hmiddle)⟩
    · rintro ⟨hb, rfl⟩
      exact ⟨hb, hmiddle⟩
  constructor
  · intro w hw
    obtain ⟨batch, middle, h, v⟩ := (zipWith_eq_ok hbase).1 hw
    obtain ⟨hb, rfl⟩ := hjoin.1 h
    have hp : w.Packed n := ⟨v.middle_eq, v.base_eq.trans ht.2⟩
    refine ⟨v.batch_eq ▸ hb, hp, fun {b} hin => ?_⟩
    apply Vector.ext
    intro i hi
    have hplace : i < t.base.numel := by
      rw [ht.2]
      simpa using hi
    have hcell : ∀ {x : Tensor α}, x.Packed n → (x.runAt n b).get ⟨i, hi⟩ = x.cellAt b [] i := by
      intro x hx
      rw [hx.runAt_get, cellAt, hx.1]
      rfl
    rw [Vector.getElem_zipWith]
    change (w.runAt n b).get ⟨i, hi⟩ = f ((s.runAt n b).get ⟨i, hi⟩) ((t.runAt n b).get ⟨i, hi⟩)
    rw [hp.runAt_get, Shape.project_of_inBounds hin,
      v.cell_eq (m := []) (v.batch_eq ▸ hin) trivial hplace, hcell hs, hcell ht]
  · intro batch hb
    obtain ⟨w, v⟩ := exists_view batch [] t.base
      fun b w k => f (s.cellAt b w k) (t.cellAt b w k)
    exact ⟨w, (zipWith_eq_ok hbase).2 ⟨batch, [], hjoin.2 ⟨hb, rfl⟩, v⟩⟩

theorem Packed.runAt_eq_getElem {t : Tensor α} {n : Nat} (ht : t.Packed n) {batch : Shape}
    {b : Index} (h : t.batch.expandsTo batch = true) (hb : Shape.InBounds batch b) (i : Fin n) :
    t.data[t.batch.offset (t.batch.project b) * n + i]? = some ((t.runAt n b).get i) := by
  have hoff := Shape.offset_lt (Shape.project_inBounds h hb)
  have hrow := Nat.mul_le_mul_right n (Nat.succ_le_of_lt hoff)
  rw [Nat.succ_mul, ← ht.size_data] at hrow
  have hlt : t.batch.offset (t.batch.project b) * n + i.val < t.data.size := by omega
  unfold runAt vectorRun
  rw [get_ofFn, Array.getElem?_eq_getElem hlt]
  rfl

theorem Packed.map_runAt {β : Type} [Zero β] {t : Tensor α} {n : Nat} (ht : t.Packed n)
    (f : α → β) {batch : Shape} {b : Index} (h : t.batch.expandsTo batch = true)
    (hb : Shape.InBounds batch b) (i : Fin n) :
    ((t.map f).runAt n b).get i = f ((t.runAt n b).get i) := by
  have hget := ht.runAt_eq_getElem h hb i
  unfold map
  rw [runAt, vectorRun, get_ofFn]
  dsimp only
  rw [Array.getElem?_map, hget]
  rfl

theorem Packed.map_run {t : Tensor α} {n : Nat} (ht : t.Packed n) (f : α → α) {batch : Shape}
    {b : Index} (h : t.batch.expandsTo batch = true) (hb : Shape.InBounds batch b) :
    (t.map f).runAt n b = (t.runAt n b).map f := by
  apply Vector.ext
  intro i hi
  rw [Vector.getElem_map]
  exact ht.map_runAt f h hb ⟨i, hi⟩

theorem Packed.zipWith_same {s t : Tensor α} {n : Nat} (f : α → α → α) (hs : s.Packed n)
    (ht : t.Packed n) (h : t.batch = s.batch) :
    ∃ w, Tensor.zipWith f s t = .ok w ∧ w.batch = s.batch ∧ w.Packed n ∧ ∀ {b : Index},
      Shape.InBounds s.batch b →
        w.runAt n b = Vector.zipWith f (s.runAt n b) (t.runAt n b) := by
  obtain ⟨hentries, hexists⟩ := hs.zipWith f ht
  have hbatch : Shape.broadcast s.batch t.batch = .ok s.batch := by
    rw [h]
    exact Shape.broadcast_of_expandsTo (Shape.expandsTo_refl s.batch)
  obtain ⟨w, hw⟩ := hexists hbatch
  obtain ⟨hwb, hwp, hrun⟩ := hentries hw
  have heq : w.batch = s.batch := Except.ok.inj (hwb.symm.trans hbatch)
  exact ⟨w, hw, heq, hwp, fun hb => hrun (heq ▸ hb)⟩

/-! ## Rows put together -/

omit [Zero α] in
theorem foldl_rows {ι : Type} {n : Nat} (xs : List ι) (f : ι → Vector α n) :
    (xs.map fun x => (f x).toArray).foldl (· ++ ·) #[] =
      (xs.map f).foldl (fun acc row => acc ++ row.toArray) #[] := by
  rw [List.foldl_map, List.foldl_map]

omit [Zero α] in
theorem flatMap_rows {ι : Type} {n : Nat} (xs : List ι) (f : ι → Vector α n) :
    (xs.flatMap fun x => (f x).toList).toArray =
      (xs.map f).foldl (fun acc row => acc ++ row.toArray) #[] := by
  have hfold : ∀ acc : Array α, (xs.map f).foldl (fun acc row => acc ++ row.toArray) acc =
      acc ++ (xs.flatMap fun x => (f x).toList).toArray := by
    induction xs with
    | nil => simp
    | cons x xs ih =>
        intro acc
        rw [List.map_cons, List.foldl_cons, ih, List.flatMap_cons]
        apply Array.ext'
        simp [Vector.toList]
  rw [hfold, Array.empty_append]

omit [Zero α] in
private theorem foldl_append_rows {n : Nat} (rows : List (Vector α n)) :
    (rows.foldl (fun acc row => acc ++ row.toArray) #[]).size = rows.length * n ∧
      ∀ (k : Nat) (row : Vector α n), rows[k]? = some row → ∀ i : Fin n,
        (rows.foldl (fun acc row => acc ++ row.toArray) #[])[k * n + i.val]? =
          some (row.get i) := by
  have hfold : ∀ (rows : List (Vector α n)) (acc : Array α),
      (rows.foldl (fun acc row => acc ++ row.toArray) acc).size = acc.size + rows.length * n ∧
        (∀ p, p < acc.size →
          (rows.foldl (fun acc row => acc ++ row.toArray) acc)[p]? = acc[p]?) ∧
        ∀ (k : Nat) (row : Vector α n), rows[k]? = some row → ∀ i : Fin n,
          (rows.foldl (fun acc row => acc ++ row.toArray) acc)[acc.size + (k * n + i.val)]? =
            some (row.get i) := by
    intro rows
    induction rows with
    | nil =>
        intro acc
        refine ⟨by simp, fun p _ => rfl, fun k row hrow => by simp at hrow⟩
    | cons head rows ih =>
        intro acc
        obtain ⟨hsize, hbefore, hafter⟩ := ih (acc ++ head.toArray)
        have happ : (acc ++ head.toArray).size = acc.size + n := by simp
        rw [happ] at hsize hbefore hafter
        rw [List.foldl_cons]
        refine ⟨?_, fun p hp => ?_, fun k row hrow i => ?_⟩
        · rw [hsize, List.length_cons, Nat.succ_mul]
          omega
        · rw [hbefore p (by omega), Array.getElem?_append_left hp]
        · cases k with
          | zero =>
              cases hrow
              have hi := i.isLt
              rw [hbefore _ (by omega), Nat.zero_mul, Nat.zero_add,
                Array.getElem?_append_right (by omega), Nat.add_sub_cancel_left]
              rw [Array.getElem?_eq_getElem (by simp)]
              rfl
          | succ k =>
              have hplace : acc.size + ((k + 1) * n + i.val) = acc.size + n + (k * n + i.val) := by
                rw [Nat.succ_mul]
                omega
              rw [hplace]
              exact hafter k row hrow i
  obtain ⟨hsize, -, hafter⟩ := hfold rows #[]
  simp only [List.size_toArray, List.length_nil, Nat.zero_add] at hsize hafter
  exact ⟨hsize, hafter⟩

omit [Zero α] in
theorem ofValues_eq_ok {batch middle base : Shape} {values : Array α} {t : Tensor α} :
    ofValues batch middle base values = .ok t ↔
      t.batch = batch ∧ t.middle = middle ∧ t.base = base ∧ t.data = values := by
  unfold ofValues
  dsimp only
  constructor
  · intro h
    split at h
    · cases h
      exact ⟨rfl, rfl, rfl, rfl⟩
    · split at h <;> cases h
  · rintro ⟨rfl, rfl, rfl, rfl⟩
    exact dif_pos t.size_data

theorem ofValues_runs {batch middle base : Shape} {n : Nat} {rows : List (Vector α n)}
    {t : Tensor α}
    (h : ofValues batch middle base (rows.foldl (fun acc row => acc ++ row.toArray) #[]) = .ok t) :
    t.batch = batch ∧ t.middle = middle ∧ t.base = base ∧
      ∀ (k : Nat) (row : Vector α n), rows[k]? = some row → t.vectorRun n k = row := by
  obtain ⟨hbatch, hmiddle, hbase, hdata⟩ := ofValues_eq_ok.1 h
  refine ⟨hbatch, hmiddle, hbase, fun k row hrow => ?_⟩
  apply Vector.ext
  intro i hi
  show (t.vectorRun n k).get ⟨i, hi⟩ = row.get ⟨i, hi⟩
  rw [vectorRun, get_ofFn, hdata]
  exact congrArg (·.getD 0) ((foldl_append_rows rows).2 k row hrow ⟨i, hi⟩)

theorem ofValues_rows {batch : Shape} {n : Nat} {rows : List (Vector α n)} {t : Tensor α}
    (h : ofValues batch [] [n] (rows.foldl (fun acc row => acc ++ row.toArray) #[]) = .ok t) :
    t.batch = batch ∧ t.Packed n ∧ ∀ (k : Nat) (row : Vector α n), rows[k]? = some row →
      t.vectorRun n k = row := by
  obtain ⟨hbatch, hmiddle, hbase, hrun⟩ := ofValues_runs h
  exact ⟨hbatch, ⟨hmiddle, hbase⟩, hrun⟩

omit [Zero α] in
theorem ofValues_runs_isOk {batch base : Shape} {n : Nat} (hbase : base.numel = n)
    {rows : List (Vector α n)} (h : rows.length = batch.numel) :
    ∃ t, ofValues batch [] base (rows.foldl (fun acc row => acc ++ row.toArray) #[]) = .ok t := by
  have hsize : (rows.foldl (fun acc row => acc ++ row.toArray) #[]).size =
      (batch ++ [] ++ base).numel := by
    rw [(foldl_append_rows rows).1, h, List.append_nil, Shape.numel_append, hbase]
  exact ⟨_, dif_pos hsize⟩

omit [Zero α] in
theorem ofValues_rows_isOk {batch : Shape} {n : Nat} {rows : List (Vector α n)}
    (h : rows.length = batch.numel) :
    ∃ t, ofValues batch [] [n] (rows.foldl (fun acc row => acc ++ row.toArray) #[]) = .ok t :=
  ofValues_runs_isOk (by simp) h

/-- Runs chosen from two packed tensors, each by a test on its entry. -/
theorem Packed.ofValues_choice {β : Type} {t w : Tensor α} {n : Nat} {batch : Shape}
    (htb : t.batch = batch) (ht : t.Packed n) (hwb : w.batch = batch) (hw : w.Packed n)
    (g : Nat → β) (test : β → Prop) [DecidablePred test] :
    ∃ v, ofValues batch [] [n] (t.data.mapIdx fun k x =>
        match ((List.range batch.numel).map g)[k / n]? with
        | some y => if test y then w.data[k]?.getD x else x
        | none => x) = .ok v ∧ v.batch = batch ∧ v.Packed n ∧
      ∀ {b : Index}, Shape.InBounds batch b →
        v.runAt n b = if test (g (batch.offset b)) then w.runAt n b else t.runAt n b := by
  subst htb
  have hsize : ∀ h : Nat → α → α, (t.data.mapIdx h).size = (t.batch ++ [] ++ [n]).numel := by
    intro h
    rw [Array.size_mapIdx, ht.size_data, List.append_nil, Shape.numel_append]
    simp
  refine ⟨_, dif_pos (hsize _), rfl, ⟨rfl, rfl⟩, fun {b} hb => ?_⟩
  have hself := Shape.expandsTo_refl t.batch
  apply Vector.ext
  intro i hi
  have htv := ht.runAt_eq_getElem hself hb ⟨i, hi⟩
  have hwv := hw.runAt_eq_getElem (hwb ▸ hself) hb ⟨i, hi⟩
  rw [Shape.project_of_inBounds hb] at htv
  rw [hwb, Shape.project_of_inBounds hb] at hwv
  have hplace := (Shape.place_div_mod (a := t.batch.offset b) hi).1
  have hentry : ((List.range t.batch.numel).map g)[t.batch.offset b]? =
      some (g (t.batch.offset b)) := by
    rw [List.getElem?_map, List.getElem?_range (Shape.offset_lt hb)]
    rfl
  show (runAt _ n b).get ⟨i, hi⟩ = Vector.get _ ⟨i, hi⟩
  rw [runAt, vectorRun, get_ofFn]
  dsimp only
  rw [Shape.project_of_inBounds hb, Array.getElem?_mapIdx, htv, Option.map_some, hplace, hentry]
  dsimp only
  by_cases h : test (g (t.batch.offset b))
  · rw [if_pos h, if_pos h, hwv]
    rfl
  · rw [if_neg h, if_neg h]
    rfl

theorem ofValues_numbers {batch : Shape} {xs : List α} (h : xs.length = batch.numel) :
    ∃ t, ofValues batch [] [1] xs.toArray = .ok t ∧ t.batch = batch ∧ t.Packed 1 ∧
      ∀ {b : Index}, Shape.InBounds batch b →
        t.runAt 1 b = #v[xs[batch.offset b]?.getD 0] := by
  have hsize : xs.toArray.size = (batch ++ [] ++ [1]).numel := by
    rw [Shape.numel_append]
    simp [h]
  refine ⟨_, dif_pos hsize, rfl, ⟨rfl, rfl⟩, fun {b} hb => ?_⟩
  rw [runAt_of_inBounds _ 1 hb]
  apply Vector.ext
  intro i hi
  obtain rfl : i = 0 := by omega
  simp [vectorRun]

theorem ofValues_numbersSquare {batch : Shape} {xs : List α} (h : xs.length = batch.numel) :
    ∃ t, ofValues batch [] [1, 1] xs.toArray = .ok t ∧ t.batch = batch ∧ t.PackedSquare 1 ∧
      ∀ {b : Index}, Shape.InBounds batch b →
        t.squareAt 1 b = .ofFn fun _ _ => xs[batch.offset b]?.getD 0 := by
  have hsize : xs.toArray.size = (batch ++ [] ++ [1, 1]).numel := by
    rw [Shape.numel_append]
    simp [h]
  refine ⟨_, dif_pos hsize, rfl, ⟨rfl, rfl⟩, fun {b} hb => ?_⟩
  rw [squareAt_of_inBounds _ 1 hb]
  apply Square.ext
  intro i k
  obtain rfl : i = 0 := Subsingleton.elim i 0
  obtain rfl : k = 0 := Subsingleton.elim k 0
  unfold squareRun
  rw [Square.ofFn_apply, Square.ofFn_apply]
  simp

/-! ## Chunks -/

private theorem take_drop_eq_run {t : Tensor α} {n p : Nat} (h : p * n + n ≤ t.data.size) :
    (t.toList.drop (p * n)).take n = (t.vectorRun n p).toList := by
  apply List.ext_getElem
  · simp [Tensor.toList]
    omega
  · intro i hi hi'
    have hin : i < n := by simpa using hi'
    have hrun : (t.vectorRun n p).toList[i] = (t.vectorRun n p).get ⟨i, hin⟩ := rfl
    rw [hrun, Tensor.vectorRun, get_ofFn, List.getElem_take, List.getElem_drop]
    have hlt : p * n + i < t.data.size := by omega
    simp [Tensor.toList, hlt]

theorem Packed.chunks_eq {t : Tensor α} {n : Nat} (h : t.Packed n) :
    chunks n t.toList = (List.range (if n = 0 then 0 else t.batch.numel)).map fun p =>
      (t.vectorRun n p).toList := by
  have hsize : t.toList.length = t.batch.numel * n := h.size_data
  by_cases h0 : n = 0
  · rw [if_pos h0]
    have hlen : (t.toList.length + (n - 1)) / max n 1 = 0 := by
      rw [hsize, h0]
      simp
    unfold chunks
    rw [hlen]
    rfl
  · have hmax : max n 1 = n := by omega
    have hlen : (t.toList.length + (n - 1)) / n = t.batch.numel := by
      rw [hsize, Nat.mul_comm, Nat.mul_add_div (by omega), Nat.div_eq_of_lt (by omega),
        Nat.add_zero]
    unfold chunks
    rw [if_neg h0, hmax, hlen]
    apply List.map_congr_left
    intro p hp
    have hle := Nat.mul_le_mul_right n (Nat.succ_le_of_lt (List.mem_range.1 hp))
    rw [Nat.succ_mul, ← h.size_data] at hle
    exact take_drop_eq_run hle

end Tensor

end TieredCalculus
