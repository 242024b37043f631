import Mathlib.Algebra.BigOperators.Group.List.Basic
import TieredCalculus.Proofs.Tensor.Entrywise

/-! # Sums of several tensors

Tensors are added one after another, each to the sum of those before it. What the partial sums
look like depends on the order. The sum of all does not: over the common shapes of all tiers,
every entry is the sum of the entries that are read there.
-/

namespace TieredCalculus.Tensor

variable {α : Type} {batch middle base : Shape} {t : Tensor α} {b w e : Index}

theorem entryAt_project [Zero α] (hbatch : t.batch.expandsTo batch = true)
    (hmiddle : t.middle.expandsTo middle = true) (hbase : t.base.expandsTo base = true)
    (hb : batch.length ≤ b.length) (hw : middle.length ≤ w.length) (he : base.length ≤ e.length) :
    t.entryAt (batch.project b) (middle.project w) (base.project e) = t.entryAt b w e := by
  unfold entryAt
  rw [Shape.project_project hbatch hb, Shape.project_project hmiddle hw,
    Shape.project_project hbase he]

variable [AddCommMonoid α] {terms others : List (Tensor α)} {r r' : Tensor α}

/-- The tensor has the common shapes of all tiers and the sums of the entries that are read
there. -/
structure SumOf (terms : List (Tensor α)) (r : Tensor α) : Prop where
  join : Join terms r.batch r.middle
  base : Shape.broadcastAll (terms.map (·.base)) = .ok r.base
  entry : ∀ {b w e}, Shape.InBounds r.batch b → Shape.InBounds r.middle w →
    Shape.InBounds r.base e → r.entry (b ++ w ++ e) = (terms.map fun t => t.entryAt b w e).sum

theorem sumOf_single (t : Tensor α) : SumOf [t] t := by
  have hself : ∀ s : Shape, Shape.broadcastAll [s] = .ok s := fun s =>
    Shape.broadcastAll_of_mem (List.mem_singleton_self s) fun _ h =>
      List.mem_singleton.1 h ▸ Shape.expandsTo_refl s
  refine ⟨⟨hself _, hself _⟩, hself _, fun {b w e} hb hw he => ?_⟩
  rw [List.map_singleton, List.sum_singleton, entryAt, Shape.project_of_inBounds hb,
    Shape.project_of_inBounds hw, Shape.project_of_inBounds he]

theorem SumOf.entryAt_eq (h : SumOf terms r) (hbatch : r.batch.expandsTo batch = true)
    (hmiddle : r.middle.expandsTo middle = true) (hbase : r.base.expandsTo base = true)
    (hb : Shape.InBounds batch b) (hw : Shape.InBounds middle w) (he : Shape.InBounds base e) :
    r.entryAt b w e = (terms.map fun t => t.entryAt b w e).sum := by
  have hread := h.entry (Shape.project_inBounds hbatch hb) (Shape.project_inBounds hmiddle hw)
    (Shape.project_inBounds hbase he)
  rw [entryAt, hread]
  congr 1
  apply List.map_congr_left
  intro t ht
  obtain ⟨htb, htm⟩ := h.join.expandsTo ht
  have htbase := Shape.broadcastAll_expandsTo h.base _ (List.mem_map_of_mem ht)
  exact entryAt_project htb htm htbase (hb.length_eq ▸ Shape.expandsTo_length hbatch)
    (hw.length_eq ▸ Shape.expandsTo_length hmiddle) (he.length_eq ▸ Shape.expandsTo_length hbase)

theorem SumOf.exists_add (h : SumOf terms r) (hjoin : Join (terms ++ [t]) batch middle)
    (hbase : Shape.broadcastAll ((terms ++ [t]).map (·.base)) = .ok base) :
    ∃ r', r.add t = .ok r' ∧ SumOf (terms ++ [t]) r' := by
  have hpair : Join [r, t] batch middle := h.join.append_iff.1 hjoin
  have hbases := hbase
  rw [List.map_append, Shape.broadcastAll_append h.base, List.map_singleton,
    Shape.broadcastAll_pair] at hbases
  obtain ⟨r', hr', hcombines⟩ := exists_combines (f := (· + ·))
    ((Shape.broadcastAll_pair _ _).symm.trans hpair.batch)
    ((Shape.broadcastAll_pair _ _).symm.trans hpair.middle) hbases
  have hrb := (Shape.broadcast_expandsTo hcombines.batch).1
  have hrm := (Shape.broadcast_expandsTo hcombines.middle).1
  have hrbase := (Shape.broadcast_expandsTo hcombines.base).1
  have hjoin' : Join (terms ++ [t]) r'.batch r'.middle := h.join.append_iff.2
    ⟨(Shape.broadcastAll_pair _ _).trans hcombines.batch,
      (Shape.broadcastAll_pair _ _).trans hcombines.middle⟩
  refine ⟨r', hr', hjoin', ?_, fun {b w e} hb hw he => ?_⟩
  · rw [List.map_append, Shape.broadcastAll_append h.base, List.map_singleton,
      Shape.broadcastAll_pair]
    exact hcombines.base
  · rw [hcombines.entry hb hw he, h.entryAt_eq hrb hrm hrbase hb hw he, List.map_append,
      List.sum_append, List.map_singleton, List.sum_singleton]

theorem SumOf.unique (hperm : terms.Perm others) (h : SumOf terms r) (h' : SumOf others r') :
    r = r' := by
  have hjoin := (join_perm hperm).1 h.join
  have hbases := (Shape.broadcastAll_perm (hperm.map (·.base))).1 h.base
  have hb : r.batch = r'.batch := Except.ok.inj (hjoin.batch.symm.trans h'.join.batch)
  have hm : r.middle = r'.middle := Except.ok.inj (hjoin.middle.symm.trans h'.join.middle)
  have hbase : r.base = r'.base := Except.ok.inj (hbases.symm.trans h'.base)
  refine ext_parts hb hm hbase fun {b w e} hib hiw hie => ?_
  rw [h.entry hib hiw hie, h'.entry (hb ▸ hib) (hm ▸ hiw) (hbase ▸ hie)]
  exact (hperm.map _).sum_eq

end TieredCalculus.Tensor
