import Mathlib.Algebra.BigOperators.Fin
import Mathlib.Algebra.Order.Field.Basic
import Mathlib.Tactic.Linarith
import Mathlib.Tactic.Ring
import TieredCalculus.Linear.Lu

/-! # Exactness of the triangular factors

Over an ordered field the factors of a matrix multiply to its rows in the order of use, and
the two substitutions solve the linear system of the matrix exactly.
-/

namespace TieredCalculus

/-! ## Loops over an index -/

section Loops

variable {n : Nat} {β : Type} {f : β → Fin n → Option β} {x y : β}

private theorem foldlM_take_succ {k : Nat} (hk : k < n) :
    ((List.finRange n).take (k + 1)).foldlM f x =
      ((List.finRange n).take k).foldlM f x >>= fun z => f z ⟨k, hk⟩ := by
  have hlt : k < (List.finRange n).length := by
    rw [List.length_finRange]
    exact hk
  rw [List.take_succ_eq_append_getElem hlt, List.foldlM_append]
  simp

/-- What a loop over the indices starts with and keeps is reached at its end. -/
theorem foldlM_finRange (P : Nat → β → Prop) (hx : P 0 x)
    (hstep : ∀ (i : Fin n) {x y : β}, P i x → f x i = some y → P (i + 1) y)
    (hy : (List.finRange n).foldlM f x = some y) : P n y := by
  have hprefix : ∀ k, k ≤ n → ∀ z, ((List.finRange n).take k).foldlM f x = some z → P k z := by
    intro k
    induction k with
    | zero =>
        intro _ z hz
        cases hz
        exact hx
    | succ k ih =>
        intro hk z hz
        rw [foldlM_take_succ hk] at hz
        obtain ⟨w, hw, hlast⟩ := Option.bind_eq_some_iff.1 hz
        exact hstep ⟨k, hk⟩ (ih (by omega) w hw) hlast
  apply hprefix n (Nat.le_refl n) y
  rw [List.take_of_length_le (by simp)]
  exact hy

theorem exists_of_foldlM_finRange_eq_none (P : Nat → β → Prop) (hx : P 0 x)
    (hstep : ∀ (i : Fin n) {x y : β}, P i x → f x i = some y → P (i + 1) y)
    (hnone : (List.finRange n).foldlM f x = none) : ∃ (i : Fin n) (y : β), P i y ∧ f y i = none := by
  by_contra hall
  have hprefix : ∀ k, k ≤ n → ∃ z, ((List.finRange n).take k).foldlM f x = some z ∧ P k z := by
    intro k
    induction k with
    | zero => exact fun _ => ⟨x, rfl, hx⟩
    | succ k ih =>
        intro hk
        obtain ⟨w, hw, hp⟩ := ih (by omega)
        cases hf : f w ⟨k, hk⟩ with
        | none => exact absurd ⟨⟨k, hk⟩, w, hp, hf⟩ hall
        | some z =>
            refine ⟨z, ?_, hstep ⟨k, hk⟩ hp hf⟩
            rw [foldlM_take_succ hk, hw]
            exact hf
  obtain ⟨z, hz, -⟩ := hprefix n (Nat.le_refl n)
  rw [List.take_of_length_le (by simp), hnone] at hz
  cases hz

end Loops

theorem foldl_finRange {n : Nat} {β : Type} {f : β → Fin n → β} (P : Nat → β → Prop)
    {x : β} (hx : P 0 x) (hstep : ∀ (i : Fin n) {x : β}, P i x → P (i + 1) (f x i)) :
    P n ((List.finRange n).foldl f x) := by
  apply foldlM_finRange (f := fun x i => some (f x i)) P hx
  · intro i x y hi hy
    cases hy
    exact hstep i hi
  · exact List.foldlM_pure

private theorem foldr_finRange {n : Nat} {β : Type} {f : Fin n → β → β} (P : Nat → β → Prop)
    {x : β} (hx : P n x) (hstep : ∀ (i : Fin n) {x : β}, P (i + 1) x → P i (f i x)) :
    P 0 ((List.finRange n).foldr f x) := by
  have hsuffix : ∀ k, k ≤ n → P (n - k) (((List.finRange n).drop (n - k)).foldr f x) := by
    intro k
    induction k with
    | zero =>
        intro _
        rw [Nat.sub_zero, List.drop_of_length_le (by simp)]
        exact hx
    | succ k ih =>
        intro hk
        have hlt : n - (k + 1) < (List.finRange n).length := by
          rw [List.length_finRange]
          omega
        have hnext : n - (k + 1) + 1 = n - k := by omega
        rw [List.drop_eq_getElem_cons hlt, List.foldr_cons, List.getElem_finRange, hnext]
        apply hstep ⟨n - (k + 1), by omega⟩
        rw [hnext]
        exact ih (by omega)
  have h := hsuffix n (Nat.le_refl n)
  rwa [Nat.sub_self, List.drop_zero] at h

namespace Lu

variable {α : Type} {n : Nat}

/-! ## Rows in the order of use -/

theorem exchange_of_lt {p q i : Fin n} (hpq : p ≤ q) (hi : i < p) : exchange p q i = i := by
  unfold exchange
  rw [if_neg (ne_of_lt hi), if_neg (ne_of_lt (lt_of_lt_of_le hi hpq))]

theorem le_exchange {p q i : Fin n} (hpq : p ≤ q) (hi : p ≤ i) : p ≤ exchange p q i := by
  unfold exchange
  by_cases hp : i = p
  · rw [if_pos hp]
    exact hpq
  · rw [if_neg hp]
    by_cases hq : i = q
    · rw [if_pos hq]
    · rw [if_neg hq]
      exact hi

theorem exchange_exchange (p q i : Fin n) : exchange p q (exchange p q i) = i := by
  unfold exchange
  by_cases hp : i = p
  · by_cases hq : q = p <;> simp [hp, hq]
  · by_cases hq : i = q <;> simp [hp, hq]

theorem exchange_injective (p q : Fin n) : Function.Injective (exchange p q) := by
  intro i k h
  rw [← exchange_exchange p q i, h, exchange_exchange]

theorem le_pivotRow [Zero α] [Neg α] [LT α] [DecidableLT α] (a : Square α n) (col : Fin n) :
    col ≤ pivotRow a col := by
  unfold pivotRow
  refine foldl_finRange (fun _ best => col ≤ best) (le_refl col) fun row best hbest => ?_
  by_cases h : col < row ∧ Scalar.abs (a best col) < Scalar.abs (a row col)
  · rw [if_pos h]
    exact h.1.le
  · rw [if_neg h]
    exact hbest

/-! ## Elimination -/

section Factor

variable [Field α]

/-- The part of row `i` of the product that the first `c` columns contribute. -/
def partialProduct (f : Square α n) (c : Nat) (i j : Fin n) : α :=
  ∑ k : Fin n, if k.val < c ∧ k < i ∧ k ≤ j then f i k * f k j else 0

theorem partialProduct_zero (f : Square α n) (i j : Fin n) : partialProduct f 0 i j = 0 := by
  simp [partialProduct]

theorem partialProduct_succ (f : Square α n) (c i j : Fin n) :
    partialProduct f (c.val + 1) i j =
      partialProduct f c i j + if c < i ∧ c ≤ j then f i c * f c j else 0 := by
  have hlast : (if c < i ∧ c ≤ j then f i c * f c j else 0) =
      ∑ k : Fin n, if k = c then if c < i ∧ c ≤ j then f i c * f c j else 0 else 0 := by
    rw [Finset.sum_ite_eq' Finset.univ c, if_pos (Finset.mem_univ c)]
  unfold partialProduct
  rw [hlast, ← Finset.sum_add_distrib]
  apply Finset.sum_congr rfl
  intro k _
  by_cases hk : k = c
  · subst hk
    simp
  · have hne : k.val ≠ c.val := fun h => hk (Fin.ext h)
    have hlt : k.val < c.val + 1 ↔ k.val < c.val := by omega
    simp only [hlt, if_neg hk, add_zero]

theorem partialProduct_congr {f g : Square α n} {c : Nat} {i i' j : Fin n}
    (hlt : ∀ k : Fin n, k.val < c → (k < i ↔ k < i'))
    (hrow : ∀ k : Fin n, k.val < c → g i k = f i' k)
    (habove : ∀ k : Fin n, k.val < c → k < i → g k j = f k j) :
    partialProduct g c i j = partialProduct f c i' j := by
  apply Finset.sum_congr rfl
  intro k _
  by_cases hk : k.val < c
  · by_cases hi : k < i
    · have hi' : k < i' := (hlt k hk).1 hi
      rw [hrow k hk, habove k hk hi]
      simp only [hi, hi', true_and]
    · have hi' : ¬k < i' := fun h => hi ((hlt k hk).2 h)
      simp only [hi, hi', false_and, and_false, if_false]
  · simp only [hk, false_and, if_false]

/-- The factors represent a matrix after elimination of its first `c` columns: the rows used
are different ones, the pivots do not vanish, and what the columns contribute to a row is
missing from the entries not yet eliminated. -/
structure Represents (lu : Lu α n) (a : Square α n) (c : Nat) : Prop where
  order_injective : Function.Injective lu.order.get
  pivot_ne_zero : ∀ k : Fin n, k.val < c → lu.factors k k ≠ 0
  row_eq : ∀ i j : Fin n, a (lu.order.get i) j =
    partialProduct lu.factors c i j + if min i.val c ≤ j.val then lu.factors i j else 0

theorem represents_start (a : Square α n) : Represents ⟨a, .ofFn id⟩ a 0 where
  order_injective := by
    intro i k h
    simpa only [get_ofFn, id] using h
  pivot_ne_zero := by
    intro k hk
    omega
  row_eq := by
    intro i j
    simp only [get_ofFn, id, partialProduct_zero, Nat.min_zero, Nat.zero_le, if_true, zero_add]

/-- The factors before and after elimination of a column with the pivot row `best`. -/
structure Eliminated (lu lu' : Lu α n) (col best : Fin n) : Prop where
  col_le : col ≤ best
  order_get : ∀ i, lu'.order.get i = lu.order.get (exchange col best i)
  entry : ∀ i j, lu'.factors i j =
    if i ≤ col then lu.factors (exchange col best i) j
    else if j < col then lu.factors (exchange col best i) j
    else if j = col then lu.factors (exchange col best i) col / lu.factors best col
    else lu.factors (exchange col best i) j -
      lu.factors (exchange col best i) col / lu.factors best col * lu.factors best j

namespace Eliminated

variable {lu lu' : Lu α n} {col best : Fin n} (h : lu.Eliminated lu' col best)
include h

theorem entry_above {k : Fin n} (hk : k < col) (j : Fin n) : lu'.factors k j = lu.factors k j := by
  rw [h.entry, if_pos hk.le, exchange_of_lt h.col_le hk]

theorem entry_pivot (j : Fin n) : lu'.factors col j = lu.factors best j := by
  have hcol : exchange col best col = best := if_pos rfl
  rw [h.entry, if_pos (le_refl col), hcol]

theorem entry_before (i : Fin n) {k : Fin n} (hk : k < col) :
    lu'.factors i k = lu.factors (exchange col best i) k := by
  rw [h.entry]
  by_cases hi : i ≤ col
  · rw [if_pos hi]
  · rw [if_neg hi, if_pos hk]

theorem partialProduct_eq (i j : Fin n) :
    partialProduct lu'.factors col i j =
      partialProduct lu.factors col (exchange col best i) j := by
  refine partialProduct_congr (fun k hk => ?_) (fun k hk => h.entry_before i hk)
    fun k hk _ => h.entry_above hk j
  by_cases hi : i < col
  · rw [exchange_of_lt h.col_le hi]
  · have hki : k < i := lt_of_lt_of_le hk (not_lt.1 hi)
    have hke : k < exchange col best i := lt_of_lt_of_le hk (le_exchange h.col_le (not_lt.1 hi))
    exact ⟨fun _ => hke, fun _ => hki⟩

/-- What the column contributes to a row goes missing from the entries of the row. -/
theorem remainder_eq (hne : lu.factors best col ≠ 0) (i j : Fin n) :
    (if min (exchange col best i).val col.val ≤ j.val then lu.factors (exchange col best i) j
      else 0) =
      (if col < i ∧ col ≤ j then lu'.factors i col * lu'.factors col j else 0) +
        if min i.val (col.val + 1) ≤ j.val then lu'.factors i j else 0 := by
  rcases lt_trichotomy i col with hi | hi | hi
  · have hmin : min i.val (col.val + 1) = min i.val col.val := by
      have : i.val < col.val := hi
      omega
    have hnot : ¬(col < i ∧ col ≤ j) := fun h => lt_asymm hi h.1
    rw [exchange_of_lt h.col_le hi, if_neg hnot, zero_add, hmin, h.entry_above hi j]
  · have hcol : exchange col best col = best := if_pos rfl
    have hmin : min best.val col.val = min col.val (col.val + 1) := by
      have : col.val ≤ best.val := h.col_le
      omega
    have hnot : ¬(col < col ∧ col ≤ j) := fun h => lt_irrefl col h.1
    rw [hi, hcol, if_neg hnot, zero_add, hmin, h.entry_pivot]
  · have hex : col.val ≤ (exchange col best i).val := le_exchange h.col_le hi.le
    have hi' : col.val < i.val := hi
    have hmin : min (exchange col best i).val col.val = col.val := by omega
    have hmin' : min i.val (col.val + 1) = col.val + 1 := by omega
    rw [hmin, hmin', h.entry_pivot j, h.entry i col, h.entry i j]
    rcases lt_trichotomy j col with hj | hj | hj
    · have hj' : j.val < col.val := hj
      have hnot : ¬(col < i ∧ col ≤ j) := fun h => absurd h.2 (not_le.2 hj)
      rw [if_neg (by omega), if_neg hnot, if_neg (by omega), add_zero]
    · subst hj
      rw [if_pos (le_refl _), if_pos ⟨hi, le_refl _⟩, if_neg (not_le.2 hi),
        if_neg (lt_irrefl _), if_pos rfl, if_neg (by omega), add_zero, div_mul_cancel₀ _ hne]
    · have hj' : col.val < j.val := hj
      rw [if_pos hj'.le, if_pos ⟨hi, hj.le⟩, if_neg (not_le.2 hi), if_neg (lt_irrefl _),
        if_pos rfl, if_pos (show col.val + 1 ≤ j.val from hj'), if_neg (not_le.2 hi),
        if_neg (lt_asymm hj), if_neg hj.ne']
      ring

end Eliminated

variable [LinearOrder α]

theorem eliminate_eq_some {eps : α} {lu lu' : Lu α n} {col : Fin n}
    (h : eliminate eps lu col = some lu') :
    lu.Eliminated lu' col (pivotRow lu.factors col) ∧
      eps ≤ Scalar.abs (lu.factors (pivotRow lu.factors col) col) := by
  have hcol : ∀ best : Fin n, exchange col best col = best := fun best => if_pos rfl
  unfold eliminate at h
  by_cases heps : eps ≤ Scalar.abs (lu.factors (pivotRow lu.factors col) col)
  · simp only [if_pos heps, Option.some.injEq] at h
    subst h
    refine ⟨⟨le_pivotRow lu.factors col, fun i => ?_, fun i j => ?_⟩, heps⟩
    · rw [get_ofFn]
    · rw [Square.ofFn_apply, hcol]
  · simp only [if_neg heps] at h
    cases h

theorem ne_zero_of_abs {eps x : α} (heps : 0 < eps) (h : eps ≤ Scalar.abs x) : x ≠ 0 := by
  intro hx
  rw [hx, Scalar.abs, if_neg (lt_irrefl 0)] at h
  exact absurd h (not_le.2 heps)

theorem Represents.eliminate {eps : α} (heps : 0 < eps) {lu lu' : Lu α n} {a : Square α n}
    {col : Fin n} (hr : lu.Represents a col) (h : lu.eliminate eps col = some lu') :
    lu'.Represents a (col.val + 1) := by
  obtain ⟨he, hpivot⟩ := eliminate_eq_some h
  have hne := ne_zero_of_abs heps hpivot
  refine ⟨?_, ?_, ?_⟩
  · intro i k hik
    rw [he.order_get, he.order_get] at hik
    exact exchange_injective col _ (hr.order_injective hik)
  · intro k hk
    by_cases hkc : k < col
    · rw [he.entry_above hkc]
      exact hr.pivot_ne_zero k hkc
    · have hk' : k = col := Fin.ext (Nat.le_antisymm (Nat.le_of_lt_succ hk) (not_lt.1 hkc))
      rw [hk', he.entry_pivot]
      exact hne
  · intro i j
    rw [he.order_get, hr.row_eq, partialProduct_succ, he.partialProduct_eq, add_assoc,
      he.remainder_eq hne]

/-- The factors of a matrix represent it with every column eliminated. -/
theorem represents_of_factor {eps : α} (heps : 0 < eps) {a : Square α n} {lu : Lu α n}
    (h : factor? eps a = some lu) : lu.Represents a n :=
  foldlM_finRange (fun c lu => Represents lu a c) (represents_start a)
    (fun _ _ _ hr he => hr.eliminate heps he) h

end Factor

/-! ## Substitutions -/

section Solve

theorem get_set (x : Vector α n) (i j : Fin n) (v : α) :
    (x.set i.val v i.isLt).get j = if j = i then v else x.get j := by
  show (x.set i.val v i.isLt)[j.val] = if j = i then v else x[j.val]
  rw [Vector.getElem_set]
  by_cases h : j = i
  · rw [if_pos h, if_pos (congrArg Fin.val h).symm]
  · rw [if_neg h, if_neg fun hv => h (Fin.ext hv.symm)]

variable [Field α]

theorem reduceRow_eq (a : Square α n) (x : Vector α n) (i : Fin n) (start : α)
    (keep : Fin n → Bool) :
    reduceRow a x i start keep = start - ∑ j, if keep j then a i j * x.get j else 0 := by
  have hlist : ∀ (l : List (Fin n)) (acc : α),
      l.foldl (fun acc j => if keep j then acc - a i j * x.get j else acc) acc =
        acc - (l.map fun j => if keep j then a i j * x.get j else 0).sum := by
    intro l
    induction l with
    | nil => simp
    | cons j l ih =>
        intro acc
        rw [List.foldl_cons, ih, List.map_cons, List.sum_cons]
        by_cases hk : keep j
        · simp only [if_pos hk]
          ring
        · simp only [if_neg hk, zero_add]
  rw [Fin.sum_univ_def]
  exact hlist (List.finRange n) start

theorem sum_set_of_not (keep : Fin n → Prop) [DecidablePred keep] (f : Fin n → α)
    (x : Vector α n) {c : Fin n} (hc : ¬keep c) (v : α) :
    (∑ j, if keep j then f j * (x.set c.val v c.isLt).get j else 0) =
      ∑ j, if keep j then f j * x.get j else 0 := by
  apply Finset.sum_congr rfl
  intro j _
  by_cases hj : keep j
  · have hne : j ≠ c := fun h => hc (h ▸ hj)
    rw [if_pos hj, if_pos hj, get_set, if_neg hne]
  · rw [if_neg hj, if_neg hj]

theorem sum_set_first (f : Fin n → α) (x : Vector α n) (i : Fin n) (v : α) :
    (∑ j, if i ≤ j then f j * (x.set i.val v i.isLt).get j else 0) =
      f i * v + ∑ j, if i < j then f j * x.get j else 0 := by
  have hfirst : f i * v = ∑ j, if j = i then f i * v else 0 := by
    rw [Finset.sum_ite_eq' Finset.univ i, if_pos (Finset.mem_univ i)]
  rw [hfirst, ← Finset.sum_add_distrib]
  apply Finset.sum_congr rfl
  intro j _
  rw [get_set]
  rcases lt_trichotomy i j with hj | hj | hj
  · rw [if_pos hj.le, if_neg hj.ne', if_neg hj.ne', if_pos hj, zero_add]
  · subst hj
    simp
  · rw [if_neg (not_le.2 hj), if_neg hj.ne, if_neg (lt_asymm hj), zero_add]

theorem forward_eq (lu : Lu α n) (b : Vector α n) (i : Fin n) :
    (lu.forward b).get i + ∑ j, (if j < i then lu.factors i j * (lu.forward b).get j else 0) =
      b.get (lu.order.get i) := by
  have hrows : (∀ i : Fin n, i.val < n → (lu.forward b).get i =
      b.get (lu.order.get i) - ∑ j, if j < i then lu.factors i j * (lu.forward b).get j else 0) ∧
      ∀ i : Fin n, n ≤ i.val → (lu.forward b).get i = b.get (lu.order.get i) := by
    unfold forward
    apply foldl_finRange fun c (y : Vector α n) =>
      (∀ i : Fin n, i.val < c → y.get i =
        b.get (lu.order.get i) - ∑ j, if j < i then lu.factors i j * y.get j else 0) ∧
      ∀ i : Fin n, c ≤ i.val → y.get i = b.get (lu.order.get i)
    · exact ⟨fun i hi => by omega, fun i _ => get_ofFn _ i⟩
    · intro c y hy
      constructor
      · -- A row that has been solved reads only rows above it, which stay as they are.
        intro i hi
        have hic : i ≤ c := Nat.le_of_lt_succ hi
        rw [sum_set_of_not (· < i) _ _ (not_lt.2 hic), get_set]
        by_cases h : i = c
        · subst h
          rw [if_pos rfl, reduceRow_eq, hy.2 i (Nat.le_refl _)]
          simp only [decide_eq_true_eq]
        · rw [if_neg h]
          have hlt : i < c := lt_of_le_of_ne hic h
          exact hy.1 i hlt
      · intro i hi
        have hne : i ≠ c := fun h => by
          rw [h] at hi
          omega
        rw [get_set, if_neg hne]
        exact hy.2 i (by omega)
  rw [hrows.1 i i.isLt]
  ring

theorem backward_eq (lu : Lu α n) (y : Vector α n) (hpivot : ∀ k, lu.factors k k ≠ 0)
    (i : Fin n) :
    ∑ j, (if i ≤ j then lu.factors i j * (lu.backward y).get j else 0) = y.get i := by
  have hrows : ∀ i : Fin n, 0 ≤ i.val →
      ∑ j, (if i ≤ j then lu.factors i j * (lu.backward y).get j else 0) = y.get i := by
    unfold backward
    apply foldr_finRange fun c (x : Vector α n) => ∀ i : Fin n, c ≤ i.val →
      ∑ j, (if i ≤ j then lu.factors i j * x.get j else 0) = y.get i
    · intro i hi
      omega
    · intro c x hx i hi
      by_cases h : i = c
      · subst h
        rw [sum_set_first, reduceRow_eq, mul_div_cancel₀ _ (hpivot i)]
        simp only [decide_eq_true_eq]
        ring
      · have hlt : c < i := lt_of_le_of_ne hi (Ne.symm h)
        rw [sum_set_of_not (i ≤ ·) _ _ (not_le.2 hlt)]
        exact hx i hlt
  exact hrows i (Nat.zero_le _)

theorem Represents.row_sum {lu : Lu α n} {a : Square α n} {c : Nat} (hr : lu.Represents a c)
    (x : Vector α n) (i : Fin n) :
    ∑ j, a (lu.order.get i) j * x.get j =
      (∑ k, if k.val < c ∧ k < i then
          lu.factors i k * ∑ j, (if k ≤ j then lu.factors k j * x.get j else 0) else 0) +
        ∑ j, if min i.val c ≤ j.val then lu.factors i j * x.get j else 0 := by
  have hterm : ∀ j, a (lu.order.get i) j * x.get j =
      (∑ k, if k.val < c ∧ k < i ∧ k ≤ j then lu.factors i k * (lu.factors k j * x.get j)
          else 0) +
        if min i.val c ≤ j.val then lu.factors i j * x.get j else 0 := by
    intro j
    rw [hr.row_eq, add_mul, partialProduct, Finset.sum_mul]
    congr 1
    · apply Finset.sum_congr rfl
      intro k _
      by_cases hk : k.val < c ∧ k < i ∧ k ≤ j
      · rw [if_pos hk, if_pos hk]
        ring
      · rw [if_neg hk, if_neg hk, zero_mul]
    · by_cases hj : min i.val c ≤ j.val
      · rw [if_pos hj, if_pos hj]
      · rw [if_neg hj, if_neg hj, zero_mul]
  rw [Finset.sum_congr rfl fun j _ => hterm j, Finset.sum_add_distrib, Finset.sum_comm]
  congr 1
  apply Finset.sum_congr rfl
  intro k _
  by_cases hk : k.val < c ∧ k < i
  · rw [if_pos hk, Finset.mul_sum]
    apply Finset.sum_congr rfl
    intro j _
    by_cases hj : k ≤ j
    · rw [if_pos ⟨hk.1, hk.2, hj⟩, if_pos hj]
    · rw [if_neg fun h => hj h.2.2, if_neg hj, mul_zero]
  · rw [if_neg hk]
    exact Finset.sum_eq_zero fun j _ => if_neg fun h => hk ⟨h.1, h.2.1⟩

/-- Factors that represent a matrix solve its linear system exactly. -/
theorem Represents.solve_eq {lu : Lu α n} {a : Square α n} (hr : lu.Represents a n)
    (b : Vector α n) (i : Fin n) : ∑ j, a i j * (lu.solve b).get j = b.get i := by
  obtain ⟨k, rfl⟩ := Finite.injective_iff_surjective.1 hr.order_injective i
  have hupper := backward_eq lu (lu.forward b) fun k => hr.pivot_ne_zero k k.isLt
  rw [hr.row_sum, ← forward_eq lu b k, add_comm, Nat.min_eq_left k.isLt.le]
  congr 1
  · exact hupper k
  · apply Finset.sum_congr rfl
    intro l _
    by_cases hl : l < k
    · rw [if_pos hl, if_pos ⟨l.isLt, hl⟩]
      congr 1
      exact hupper l
    · rw [if_neg hl, if_neg fun h => hl h.2]

theorem solve_of_factor [LinearOrder α] {eps : α} (heps : 0 < eps) {a : Square α n} {lu : Lu α n}
    (h : factor? eps a = some lu) (b : Vector α n) (i : Fin n) :
    ∑ j, a i j * (lu.solve b).get j = b.get i :=
  (represents_of_factor heps h).solve_eq b i

end Solve

end Lu

end TieredCalculus
