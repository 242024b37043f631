import TieredCalculus.Assembly.Blocks
import TieredCalculus.Proofs.Assembly.Windows
import TieredCalculus.Proofs.Shape.Bounds
import TieredCalculus.Proofs.Tensor.Runs

/-! # Packing parts along an axis

The parts that are present are expanded to the least common expansion of their batch shapes,
and the result holds each of them in the window of its variable, with zeros where a part is
absent. This determines the result, so packing succeeds with a tensor exactly when the tensor
holds the parts.
-/

namespace TieredCalculus

namespace Update

variable {ε β γ : Type}

theorem except_mapM_eq_ok_iff {f : γ → Except ε β} {xs : List γ} {ys : List β} :
    xs.mapM f = .ok ys ↔ List.Forall₂ (fun x y => f x = .ok y) xs ys := by
  induction xs generalizing ys with
  | nil =>
    rw [List.mapM_nil, List.forall₂_nil_left_iff]
    exact ⟨fun h => by cases h; rfl, fun h => by rw [h]; rfl⟩
  | cons x xs ih =>
    rw [List.mapM_cons, List.forall₂_cons_left_iff]
    constructor
    · intro h
      obtain ⟨y, hy, hrest⟩ := except_bind_eq_ok.1 h
      obtain ⟨zs, hzs, hend⟩ := except_bind_eq_ok.1 hrest
      cases hend
      exact ⟨y, zs, hy, ih.1 hzs, rfl⟩
    · rintro ⟨y, zs, hy, hzs, rfl⟩
      exact except_bind_eq_ok.2 ⟨y, hy, except_bind_eq_ok.2 ⟨zs, ih.2 hzs, rfl⟩⟩

theorem except_mapM_forall₂ {δ : Type} {f : γ → Except ε β} {P : δ → γ → Prop}
    {Q : δ → β → Prop} {ds : List δ} {xs : List γ} (h : List.Forall₂ P ds xs)
    (hf : ∀ d x, P d x → ∃ y, f x = .ok y ∧ Q d y) :
    ∃ ys, xs.mapM f = .ok ys ∧ List.Forall₂ Q ds ys := by
  induction h with
  | nil => exact ⟨[], rfl, .nil⟩
  | @cons d x ds xs hx _ ih =>
    obtain ⟨y, hy, hQ⟩ := hf d x hx
    obtain ⟨ys, hys, hrest⟩ := ih
    refine ⟨y :: ys, ?_, .cons hQ hrest⟩
    rw [List.mapM_cons]
    exact except_bind_eq_ok.2 ⟨y, hy, except_bind_eq_ok.2 ⟨ys, hys, rfl⟩⟩

theorem except_mapM_eq_ok_map {f : γ → Except ε β} {check : γ → Prop} {g : γ → β}
    (hf : ∀ x y, f x = .ok y ↔ check x ∧ y = g x) {xs : List γ} {ys : List β} :
    xs.mapM f = .ok ys ↔ (∀ x ∈ xs, check x) ∧ ys = xs.map g := by
  rw [except_mapM_eq_ok_iff]
  simp only [hf]
  rw [List.forall₂_and_left]
  refine and_congr_right fun _ => ?_
  rw [eq_comm, ← List.forall₂_eq_eq_eq, List.forall₂_map_left_iff]
  simp only [eq_comm]

theorem except_mapM_congr {f g : γ → Except ε β} {xs : List γ} (h : ∀ x ∈ xs, f x = g x) :
    xs.mapM f = xs.mapM g := by
  induction xs with
  | nil => rfl
  | cons x xs ih =>
    rw [List.mapM_cons, List.mapM_cons, h x List.mem_cons_self,
      ih fun y hy => h y (List.mem_cons_of_mem x hy)]

theorem except_mapM_ne_error {f : γ → Except ε β} {xs : List γ} {e : ε}
    (h : ∀ x ∈ xs, f x ≠ .error e) : xs.mapM f ≠ .error e := by
  intro hxs
  obtain ⟨x, hx, he⟩ := except_mapM_eq_error hxs
  exact h x hx he

end Update

namespace Tensor

variable {α : Type} [Zero α]

@[simp] theorem entry_zeros (batch middle base : Shape) (idx : Index) :
    (zeros batch middle base : Tensor α).entry idx = 0 := by
  simp only [entry, zeros, full, Array.getElem?_replicate]
  split <;> rfl

end Tensor

namespace Axis

open Tensor

variable {α : Type} [Zero α]

/-- The entry of a part, read in a larger batch; zero if the part is absent. -/
def partEntry (part : Option (Tensor α)) (b e : Index) : α :=
  part.elim 0 fun t => t.entry (t.batch.project b ++ e)

theorem partEntry_project {part : Option (Tensor α)} {batch : Shape} {b : Index} (e : Index)
    (h : ∀ t, part = some t → t.batch.expandsTo batch = true) (hb : batch.length ≤ b.length) :
    partEntry part (batch.project b) e = partEntry part b e := by
  cases part with
  | none => rfl
  | some t =>
    change t.entry (t.batch.project (batch.project b) ++ e) = t.entry (t.batch.project b ++ e)
    rw [Shape.project_project (h t rfl) hb]

omit [Zero α] in
theorem checkPart_eq_ok {name : Path} {t : Tensor α} {expected : Shape} :
    checkPart name t expected = .ok () ↔ t.middle = [] ∧ t.base = expected := by
  unfold checkPart
  by_cases h : t.middle = [] ∧ t.base = expected
  · rw [if_neg (by simp [h.1, h.2])]
    exact iff_of_true rfl h
  · rw [if_pos (by simpa [imp_iff_not_or, not_and_or] using h)]
    exact iff_of_false (by simp) h

/-! ## Filling -/

/-- The tensor shows a part, or zeros in its place, at every index of a batch. -/
structure Shows (part : Option (Tensor α)) (batch base : Shape) (t : Tensor α) : Prop where
  batch_eq : t.batch = batch
  middle_eq : t.middle = []
  base_eq : t.base = base
  entry_eq : ∀ {b e : Index}, Shape.InBounds batch b → Shape.InBounds base e →
    t.entry (b ++ e) = partEntry part b e

theorem shows_zeros (batch base : Shape) :
    Shows (none : Option (Tensor α)) batch base (zeros batch [] base) :=
  ⟨rfl, rfl, rfl, fun _ _ => entry_zeros _ _ _ _⟩

theorem shows_expandBatch {t : Tensor α} {batch base : Shape} (hm : t.middle = [])
    (hbase : t.base = base) (h : t.batch.expandsTo batch = true) :
    ∃ w, t.expandBatch batch = .ok w ∧ Shows (some t) batch base w := by
  obtain ⟨w, hw⟩ := expandBatch_isOk h
  obtain ⟨-, hview⟩ := expandBatch_view hw
  exact ⟨w, hw, hview.batch_eq, hview.middle_eq.trans hm, hview.base_eq.trans hbase,
    fun hb he => entry_of_expandBatch hw hm hb (hbase ▸ he)⟩

theorem Shows.unique {part : Option (Tensor α)} {batch base : Shape} {s t : Tensor α}
    (hs : Shows part batch base s) (ht : Shows part batch base t) : s = t := by
  refine ext_entry (hs.batch_eq.trans ht.batch_eq.symm) (hs.middle_eq.trans ht.middle_eq.symm)
    (hs.base_eq.trans ht.base_eq.symm) fun idx hidx => ?_
  rw [shape, hs.batch_eq, hs.middle_eq, hs.base_eq, List.append_nil] at hidx
  obtain ⟨b, e, rfl, hb, he⟩ := Shape.exists_append_of_inBounds hidx
  rw [hs.entry_eq hb he, ht.entry_eq hb he]

/-! ## Joining -/

theorem exists_mem_zip {β γ : Type} {R : β → γ → Prop} {xs : List β} {ys : List γ}
    (h : List.Forall₂ R xs ys) {x : β} (hx : x ∈ xs) : ∃ y, (x, y) ∈ xs.zip ys := by
  rw [← List.map_fst_zip (Nat.le_of_eq h.length_eq)] at hx
  obtain ⟨⟨x', y⟩, hmem, rfl⟩ := List.mem_map.1 hx
  exact ⟨y, hmem⟩

variable {vars : List VariableLayout} {value : VariableLayout → Option (Tensor α)}
  {pre post batch : Shape}

/-- The tensor shows in the window of each variable its part. -/
structure Stacks (vars : List VariableLayout) (value : VariableLayout → Option (Tensor α))
    (pre post batch : Shape) (t : Tensor α) : Prop
    extends Slab batch [] pre (Shape.total (vars.map (·.storage))) post t where
  entry_eq : ∀ v ∈ vars, ∀ {b p q : Index} {j : Nat}, Shape.InBounds batch b →
    Shape.InBounds pre p → j < v.storage → Shape.InBounds post q →
    t.entry (b ++ p ++ (v.start + j) :: q) = partEntry (value v) b (p ++ j :: q)

/-- What joining parts gives: nothing without any part, and else the tensor that stacks them
over the least common expansion of their batch shapes. -/
inductive Joined (vars : List VariableLayout) (value : VariableLayout → Option (Tensor α))
    (pre post : Shape) : Option (Tensor α) → Prop
  | absent : (∀ v ∈ vars, value v = none) → Joined vars value pre post none
  | stacked {batch : Shape} {t : Tensor α} : (∃ v ∈ vars, (value v).isSome) →
      Shape.IsJoin ((vars.filterMap value).map (·.batch)) batch →
      Stacks vars value pre post batch t → Joined vars value pre post (some t)

theorem Stacks.unique (hvars : Consecutive 0 vars) {s t : Tensor α}
    (hs : Stacks vars value pre post batch s) (ht : Stacks vars value pre post batch t) :
    s = t := by
  refine hs.toSlab.ext hvars ht.toSlab fun v hv {a c j} ha hj hc => ?_
  rw [List.append_nil] at ha
  obtain ⟨b, p, rfl, hb, hp⟩ := Shape.exists_append_of_inBounds ha
  rw [hs.entry_eq v hv hb hp hj hc, ht.entry_eq v hv hb hp hj hc]

theorem stacks_concatenate (hvars : Consecutive 0 vars) (hne : vars ≠ [])
    {filled : List (Tensor α)}
    (h : List.Forall₂ (fun v w => Shows (value v) batch (pre ++ v.storage :: post) w)
      vars filled) :
    ∃ t, concatenate filled pre.length = .ok t ∧ Stacks vars value pre post batch t := by
  have hslabs : List.Forall₂ (fun v w => Slab batch [] pre v.storage post w) vars filled :=
    h.imp fun v w hw => ⟨hw.batch_eq, hw.middle_eq, hw.base_eq⟩
  obtain ⟨t, ht, hslab, hwindows⟩ := concatenate_slabs hvars hne hslabs
  refine ⟨t, ht, hslab, fun v hv {b p q j} hb hp hj hq => ?_⟩
  obtain ⟨w, hmem⟩ := exists_mem_zip h hv
  have hin : Shape.InBounds (batch ++ [] ++ pre) (b ++ p) := by
    rw [List.append_nil]
    exact Shape.inBounds_append hb hp
  rw [← (List.forall₂_zip hwindows hmem).entry_eq hin hj hq, List.append_assoc]
  exact (List.forall₂_zip h hmem).entry_eq hb (Shape.inBounds_append hp ⟨hj, hq⟩)

theorem joinParts_of_absent (h : ∀ v ∈ vars, value v = none) (base : VariableLayout → Shape)
    (axis : Nat) : joinParts (vars.map fun v => (value v, base v)) axis = .ok none := by
  have hpresent : (vars.map fun v => (value v, base v)).filterMap (·.1) = [] := by
    rw [List.filterMap_map, List.filterMap_eq_nil_iff]
    exact h
  unfold joinParts
  rw [hpresent]
  rfl

omit [Zero α] in
theorem batch_expandsTo (h : Shape.IsJoin ((vars.filterMap value).map (·.batch)) batch) :
    ∀ v ∈ vars, ∀ t, value v = some t → t.batch.expandsTo batch = true :=
  fun v hv t ht => h.bound _ (List.mem_map.2 ⟨t, List.mem_filterMap.2 ⟨v, hv, ht⟩, rfl⟩)

theorem exists_filled
    (hfit : ∀ v ∈ vars, ∀ t, value v = some t →
      t.middle = [] ∧ t.base = pre ++ v.storage :: post)
    (hbatch : ∀ v ∈ vars, ∀ t, value v = some t → t.batch.expandsTo batch = true) :
    ∃ filled : List (Tensor α),
      ((vars.map fun v => (value v, pre ++ v.storage :: post)).mapM
        (m := Except TensorError) fun
        | (some t, _) => t.expandBatch batch
        | (none, base) => pure (Tensor.zeros batch [] base)) = .ok filled ∧
      List.Forall₂ (fun v w => Shows (value v) batch (pre ++ v.storage :: post) w)
        vars filled := by
  induction vars with
  | nil => exact ⟨[], rfl, .nil⟩
  | cons v vars ih =>
    obtain ⟨filled, hfilled, hshows⟩ := ih (fun w hw => hfit w (List.mem_cons_of_mem v hw))
      fun w hw => hbatch w (List.mem_cons_of_mem v hw)
    rw [List.map_cons, List.mapM_cons]
    cases hv : value v with
    | none =>
      refine ⟨zeros batch [] (pre ++ v.storage :: post) :: filled, ?_, .cons ?_ hshows⟩
      · exact Update.except_bind_eq_ok.2 ⟨_, rfl, Update.except_bind_eq_ok.2 ⟨_, hfilled, rfl⟩⟩
      · rw [hv]
        exact shows_zeros _ _
    | some t =>
      obtain ⟨hm, hbase⟩ := hfit v List.mem_cons_self t hv
      obtain ⟨w, hw, hshow⟩ := shows_expandBatch hm hbase (hbatch v List.mem_cons_self t hv)
      refine ⟨w :: filled, ?_, .cons ?_ hshows⟩
      · exact Update.except_bind_eq_ok.2 ⟨_, hw, Update.except_bind_eq_ok.2 ⟨_, hfilled, rfl⟩⟩
      · rwa [hv]

theorem exists_joined (hvars : Consecutive 0 vars)
    (hfit : ∀ v ∈ vars, ∀ t, value v = some t →
      t.middle = [] ∧ t.base = pre ++ v.storage :: post)
    (hbatch : ∀ v ∈ vars, ∀ t, value v = some t → t.batch.expandsTo batch = true) :
    ∃ result, Joined vars value pre post result := by
  by_cases hpresent : ∃ v ∈ vars, (value v).isSome
  · have hbound : ∀ s ∈ (vars.filterMap value).map (·.batch), s.expandsTo batch = true := by
      intro s hs
      obtain ⟨t, ht, rfl⟩ := List.mem_map.1 hs
      obtain ⟨v, hv, hvt⟩ := List.mem_filterMap.1 ht
      exact hbatch v hv t hvt
    obtain ⟨joined, hjoined, -⟩ := Shape.broadcastAll_of_bound hbound
    have hjoin := Shape.broadcastAll_eq_ok.1 hjoined
    obtain ⟨filled, -, hshows⟩ := exists_filled hfit (batch_expandsTo hjoin)
    have hne : vars ≠ [] := by
      obtain ⟨v, hv, -⟩ := hpresent
      exact List.ne_nil_of_mem hv
    obtain ⟨t, -, hstacks⟩ := stacks_concatenate hvars hne hshows
    exact ⟨some t, .stacked hpresent hjoin hstacks⟩
  · exact ⟨none, .absent fun v hv =>
      Option.not_isSome_iff_eq_none.1 fun hsome => hpresent ⟨v, hv, hsome⟩⟩

theorem joinParts_of_present (hvars : Consecutive 0 vars)
    (hfit : ∀ v ∈ vars, ∀ t, value v = some t →
      t.middle = [] ∧ t.base = pre ++ v.storage :: post)
    (hpresent : ∃ v ∈ vars, (value v).isSome) {result : Option (Tensor α)} :
    joinParts (vars.map fun v => (value v, pre ++ v.storage :: post)) pre.length = .ok result ↔
      ∃ batch t, Shape.IsJoin ((vars.filterMap value).map (·.batch)) batch ∧
        Stacks vars value pre post batch t ∧ result = some t := by
  have hfilter : (vars.map fun v => (value v, pre ++ v.storage :: post)).filterMap (·.1) =
      vars.filterMap value := by
    rw [List.filterMap_map]
    rfl
  have hne : ¬ (vars.filterMap value).isEmpty = true := by
    obtain ⟨v, hv, hsome⟩ := hpresent
    obtain ⟨t, ht⟩ := Option.isSome_iff_exists.1 hsome
    rw [List.isEmpty_iff]
    exact List.ne_nil_of_mem (List.mem_filterMap.2 ⟨v, hv, ht⟩)
  obtain ⟨v, hv, -⟩ := hpresent
  unfold joinParts
  simp only [hfilter, if_neg hne]
  constructor
  · intro h
    obtain ⟨batch, hjoin, h⟩ := Update.except_bind_eq_ok.1 h
    rw [Shape.broadcastAll_eq_ok] at hjoin
    obtain ⟨filled, hfilled, h⟩ := Update.except_bind_eq_ok.1 h
    obtain ⟨t, ht, h⟩ := Update.except_bind_eq_ok.1 h
    cases h
    obtain ⟨filled', hfilled', hshows⟩ := exists_filled hfit (batch_expandsTo hjoin)
    obtain rfl := Except.ok.inj (hfilled.symm.trans hfilled')
    obtain ⟨t', ht', hstacks⟩ := stacks_concatenate hvars (List.ne_nil_of_mem hv) hshows
    obtain rfl := Except.ok.inj (ht.symm.trans ht')
    exact ⟨batch, t, hjoin, hstacks, rfl⟩
  · rintro ⟨batch, t, hjoin, hstacks, rfl⟩
    obtain ⟨filled, hfilled, hshows⟩ := exists_filled hfit (batch_expandsTo hjoin)
    obtain ⟨t', ht', hstacks'⟩ := stacks_concatenate hvars (List.ne_nil_of_mem hv) hshows
    obtain rfl := hstacks.unique hvars hstacks'
    exact Update.except_bind_eq_ok.2 ⟨batch, Shape.broadcastAll_eq_ok.2 hjoin,
      Update.except_bind_eq_ok.2 ⟨filled, hfilled,
        Update.except_bind_eq_ok.2 ⟨t, ht', rfl⟩⟩⟩

theorem joinParts_eq_ok (hvars : Consecutive 0 vars)
    (hfit : ∀ v ∈ vars, ∀ t, value v = some t →
      t.middle = [] ∧ t.base = pre ++ v.storage :: post) {result : Option (Tensor α)} :
    joinParts (vars.map fun v => (value v, pre ++ v.storage :: post)) pre.length = .ok result ↔
      Joined vars value pre post result := by
  by_cases hpresent : ∃ v ∈ vars, (value v).isSome
  · rw [joinParts_of_present hvars hfit hpresent]
    constructor
    · rintro ⟨batch, t, hjoin, hstacks, rfl⟩
      exact .stacked hpresent hjoin hstacks
    · rintro (habsent | ⟨-, hjoin, hstacks⟩)
      · obtain ⟨v, hv, hsome⟩ := hpresent
        simp [habsent v hv] at hsome
      · exact ⟨_, _, hjoin, hstacks, rfl⟩
  · have habsent : ∀ v ∈ vars, value v = none := fun v hv =>
      Option.not_isSome_iff_eq_none.1 fun hsome => hpresent ⟨v, hv, hsome⟩
    rw [joinParts_of_absent habsent]
    constructor
    · intro h
      cases h
      exact .absent habsent
    · rintro (- | ⟨hsome, -, -⟩)
      · rfl
      · exact absurd hsome hpresent

theorem Joined.expandsTo_iff {result : Option (Tensor α)} (h : Joined vars value pre post result)
    {larger : Shape} :
    (∀ t, result = some t → t.batch.expandsTo larger = true) ↔
      ∀ v ∈ vars, ∀ t, value v = some t → t.batch.expandsTo larger = true := by
  cases h with
  | absent habsent =>
    constructor
    · intro _ v hv t ht
      rw [habsent v hv] at ht
      cases ht
    · intro _ t ht
      cases ht
  | @stacked batch t _ hjoin hstacks =>
    constructor
    · intro hlarger v hv s hs
      have ht := hlarger t rfl
      rw [hstacks.batch_eq] at ht
      exact Shape.expandsTo_trans (batch_expandsTo hjoin v hv s hs) ht
    · intro hlarger s hs
      cases hs
      rw [hstacks.batch_eq]
      refine hjoin.least fun s hs => ?_
      obtain ⟨t, ht, rfl⟩ := List.mem_map.1 hs
      obtain ⟨v, hv, hvt⟩ := List.mem_filterMap.1 ht
      exact hlarger v hv t hvt

theorem Joined.partEntry_eq {result : Option (Tensor α)} (h : Joined vars value pre post result)
    {larger : Shape} (hlarger : ∀ t, result = some t → t.batch.expandsTo larger = true)
    {v : VariableLayout} (hv : v ∈ vars) {b p q : Index} {j : Nat}
    (hb : Shape.InBounds larger b) (hp : Shape.InBounds pre p) (hj : j < v.storage)
    (hq : Shape.InBounds post q) :
    partEntry result b (p ++ (v.start + j) :: q) = partEntry (value v) b (p ++ j :: q) := by
  cases h with
  | absent habsent =>
    rw [habsent v hv]
    rfl
  | @stacked batch t _ hjoin hstacks =>
    have ht := hlarger t rfl
    rw [hstacks.batch_eq] at ht
    have hread := hstacks.entry_eq v hv (Shape.project_inBounds ht hb) hp hj hq
    change t.entry (t.batch.project b ++ _) = _
    rw [hstacks.batch_eq, ← List.append_assoc, hread]
    have hlen := Shape.expandsTo_length ht
    exact partEntry_project _ (batch_expandsTo hjoin v hv) (by rwa [hb.length_eq])

/-! ## Empty assemblies

Only the last step of packing reports that there is nothing to pack. -/

omit [Zero α] in
theorem checkPart_ne {name : Path} {t : Tensor α} {base : Shape} :
    checkPart name t base ≠ .error .emptyAssembly := by
  unfold checkPart
  split <;> simp

theorem broadcastAll_ne {shapes : List Shape} :
    Shape.broadcastAll shapes ≠ .error .emptyAssembly := by
  unfold Shape.broadcastAll
  generalize ([] : Shape) = a
  induction shapes generalizing a with
  | nil => intro h; cases h
  | cons s shapes ih =>
    rw [List.foldlM_cons]
    intro h
    rcases Update.except_bind_eq_error.1 h with h | ⟨b, -, h⟩
    · unfold Shape.broadcast at h
      dsimp only at h
      split at h <;> cases h
    · exact ih b h

theorem expandBatch_ne {t : Tensor α} {batch : Shape} :
    t.expandBatch batch ≠ .error .emptyAssembly := by
  unfold expandBatch expandLeading
  dsimp only
  repeat' split
  all_goals simp

theorem concatenate_ne {ts : List (Tensor α)} {axis : Nat} :
    concatenate ts axis ≠ .error .emptyAssembly := by
  unfold concatenate
  dsimp only
  repeat' split
  all_goals simp

theorem joinParts_ne {parts : List (Option (Tensor α) × Shape)} {axis : Nat} :
    joinParts parts axis ≠ .error .emptyAssembly := by
  unfold joinParts
  dsimp only
  intro h
  split at h
  · cases h
  · rcases Update.except_bind_eq_error.1 h with h | ⟨batch, -, h⟩
    · exact broadcastAll_ne h
    · rcases Update.except_bind_eq_error.1 h with h | ⟨filled, -, h⟩
      · refine Update.except_mapM_ne_error (fun part _ => ?_) h
        split
        · exact expandBatch_ne
        · intro h; cases h
      · rcases Update.except_bind_eq_error.1 h with h | ⟨t, -, h⟩
        · exact concatenate_ne h
        · cases h

/-! ## Vectors -/

omit [Zero α] in
theorem checkedParts_eq_ok {name : VariableLayout → Path} {base : VariableLayout → Shape}
    {parts : List (Option (Tensor α) × Shape)} :
    (vars.mapM (m := Except TensorError) fun v =>
      match value v with
      | some t => do
        checkPart (name v) t (base v)
        return (some t, base v)
      | none => return (none, base v)) = .ok parts ↔
      (∀ v ∈ vars, ∀ t, value v = some t → t.middle = [] ∧ t.base = base v) ∧
        parts = vars.map fun v => (value v, base v) := by
  apply Update.except_mapM_eq_ok_map
  intro v part
  cases hv : value v with
  | none =>
    simp only [reduceCtorEq, false_implies, implies_true, true_and]
    exact ⟨fun h => (Except.ok.inj h).symm, fun h => congrArg Except.ok h.symm⟩
  | some t =>
    rw [Update.except_bind_eq_ok]
    constructor
    · rintro ⟨_, hcheck, h⟩
      refine ⟨fun t' ht' => ?_, (Except.ok.inj h).symm⟩
      cases ht'
      exact checkPart_eq_ok.1 hcheck
    · rintro ⟨hcheck, rfl⟩
      exact ⟨(), checkPart_eq_ok.2 (hcheck t rfl), rfl⟩

/-- A vector is packed exactly when the values that are present have the sizes of their
variables and batch shapes with a common expansion, and there is one. -/
theorem pack_eq_ok {axis : Axis} (haxis : Consecutive 0 axis.leaves)
    {values : PathMap (Tensor α)} {t : Tensor α} :
    axis.pack values = .ok t ↔
      (∀ v ∈ axis.leaves, ∀ t, values.get? v.name = some t →
        t.middle = [] ∧ t.base = [v.storage]) ∧
      Joined axis.leaves (fun v => values.get? v.name) [] [] (some t) := by
  unfold pack
  rw [Update.except_bind_eq_ok]
  constructor
  · rintro ⟨parts, hparts, h⟩
    obtain ⟨hfit, rfl⟩ := checkedParts_eq_ok.1 hparts
    obtain ⟨result, hjoin, h⟩ := Update.except_bind_eq_ok.1 h
    refine ⟨hfit, ?_⟩
    cases result with
    | none => cases h
    | some t' =>
      cases h
      exact (joinParts_eq_ok haxis hfit).1 hjoin
  · rintro ⟨hfit, hjoined⟩
    exact ⟨_, checkedParts_eq_ok.2 ⟨hfit, rfl⟩,
      Update.except_bind_eq_ok.2 ⟨_, (joinParts_eq_ok haxis hfit).2 hjoined, rfl⟩⟩

/-! ## Maps of unpacked parts -/

variable {β : Type} {R : VariableLayout → β → Prop}

omit [Zero α] in
private theorem names_of_forall₂ {entries : List (Path × β)}
    (h : List.Forall₂ (fun v e => e.1 = v.name ∧ R v e.2) vars entries) :
    entries.map (·.1) = vars.map (·.name) := by
  induction h with
  | nil => rfl
  | cons he _ ih => rw [List.map_cons, List.map_cons, ih, he.1]

theorem get?_ofList_of_forall₂ (hvars : (vars.map (·.name)).Nodup) {entries : List (Path × β)}
    (h : List.Forall₂ (fun v e => e.1 = v.name ∧ R v e.2) vars entries) {v : VariableLayout}
    (hv : v ∈ vars) : ∃ x, (PathMap.ofList entries).get? v.name = some x ∧ R v x := by
  obtain ⟨⟨name, x⟩, hmem⟩ := exists_mem_zip h hv
  obtain ⟨rfl, hx⟩ := List.forall₂_zip h hmem
  refine ⟨x, PathMap.get?_ofList_of_mem ?_ (List.of_mem_zip hmem).2, hx⟩
  rwa [names_of_forall₂ h]

theorem mem_names_of_get?_ofList {entries : List (Path × β)}
    (h : List.Forall₂ (fun v e => e.1 = v.name ∧ R v e.2) vars entries) {p : Path}
    (hp : ((PathMap.ofList entries).get? p).isSome) : p ∈ vars.map (·.name) := by
  by_contra hnot
  rw [← names_of_forall₂ h] at hnot
  rw [PathMap.get?_ofList_of_notMem hnot] at hp
  cases hp

theorem forall₂_zip_names {parts : List β} (h : List.Forall₂ R vars parts) :
    List.Forall₂ (fun v e => e.1 = v.name ∧ R v e.2) vars
      ((vars.map (·.name)).zip parts) := by
  induction h with
  | nil => exact .nil
  | cons hpart _ ih => exact .cons ⟨rfl, hpart⟩ ih

theorem unpack_fits {axis : Axis} {t : Tensor α} {parts : PathMap (Tensor α)}
    (h : axis.unpack t = .ok parts) : t.middle = [] ∧ t.base = [axis.size] := by
  obtain ⟨_, hcheck, -⟩ := Update.except_bind_eq_ok.1 h
  exact checkPart_eq_ok.1 hcheck

theorem exists_unpack {axis : Axis} (haxis : axis.Laid) {t : Tensor α} (hm : t.middle = [])
    (hbase : t.base = [axis.size]) :
    ∃ parts, axis.unpack t = .ok parts ∧
      (∀ p, (parts.get? p).isSome → p ∈ axis.names) ∧
      ∀ v ∈ axis.leaves, ∃ part, parts.get? v.name = some part ∧
        Window t t.batch [] [] v.start v.storage [] part := by
  have hslab : Slab t.batch [] [] (Shape.total (axis.leaves.map (·.storage))) [] t :=
    ⟨rfl, hm, hbase⟩
  obtain ⟨parts, hparts, hwindows⟩ := hslab.split haxis.consecutive
  have hnamed := forall₂_zip_names hwindows
  refine ⟨_, ?_, fun p => mem_names_of_get?_ofList hnamed,
    fun v hv => get?_ofList_of_forall₂ haxis.nodup_names hnamed hv⟩
  unfold unpack
  exact Update.except_bind_eq_ok.2 ⟨(), checkPart_eq_ok.2 ⟨hm, hbase⟩,
    Update.except_bind_eq_ok.2 ⟨parts, hparts, rfl⟩⟩

end Axis

end TieredCalculus
