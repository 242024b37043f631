import TieredCalculus.Proofs.Derivative.Accumulation
import TieredCalculus.Proofs.Tensor.Sums

/-! # Accumulated contributions

What is accumulated in an undefined derivative is the sum of the expanded contributions. Every
step adds one more of them to the stored sum, so nothing but the list of contributions decides
what is stored in the end, and its order does not matter.
-/

namespace TieredCalculus.Derivative

open Tensor

variable {α : Type} {n : Nat} {d : Derivative α n} {t w r : Tensor α} {ts ws : List (Tensor α)}
  {batch middle : Shape}

/-! ## One contribution -/

/-- The contribution has the base of the derivative and is expanded to the second tensor. -/
structure Contributes [Zero α] (d : Derivative α n) (t w : Tensor α) : Prop where
  base_eq : t.base = d.base
  expands : d.expandIntrinsic t = .ok w

theorem contributes_of_assign [Zero α]
    (h : (assign t).outcome d = (.ok (), { d with value := some w })) : d.Contributes t w := by
  obtain ⟨hbase, w', hw', heq⟩ := withValue_eq_ok.1 (assign_outcome_eq_ok.1 h)
  have hvalue : some w = some w' := congrArg Derivative.value heq
  cases hvalue
  exact ⟨hbase, hw'⟩

theorem Contributes.expanded_base [Zero α] (h : d.Contributes t w) : w.base = d.base :=
  (expandIntrinsic_eq_ok h.expands).1.trans h.base_eq

theorem bases_of_terms [Zero α] (h : List.Forall₂ d.Contributes ts ws) :
    ∀ w ∈ ws, w.base = d.base := by
  induction h with
  | nil => simp
  | cons ht _ ih => exact List.forall_mem_cons.2 ⟨ht.expanded_base, ih⟩

theorem broadcastAll_bases (hne : ws ≠ []) (h : ∀ w ∈ ws, w.base = d.base) :
    Shape.broadcastAll (ws.map (·.base)) = .ok d.base := by
  have heq : ∀ s ∈ ws.map (·.base), s = d.base := by
    simpa using h
  exact Shape.broadcastAll_eq_ok.2 (Shape.isJoin_of_forall_eq (by simpa using hne) heq)

variable [AddCommMonoid α]

theorem Contributes.store (h : d.Contributes t w) (hnone : d.value = none) :
    (accumulate t).outcome d = (.ok (), { d with value := some w }) :=
  accumulate_undefined h.base_eq h.expands hnone

theorem Contributes.add (h : d.Contributes t w) {u : Tensor α} (hr : u.add w = .ok r) :
    (accumulate t).outcome { d with value := some u } = (.ok (), { d with value := some r }) := by
  have hexpands : ({ d with value := some u } : Derivative α n).expandIntrinsic t = .ok w :=
    (expandIntrinsic_congr rfl rfl rfl).trans h.expands
  have hbase : t.base = ({ d with value := some u } : Derivative α n).base := h.base_eq
  exact (accumulate_stored hbase hexpands rfl).2 ⟨r, hr, rfl⟩

/-! ## Runs -/

/-- Along a run of contributions the stored value is the sum of those expanded so far. -/
theorem forM_accumulate (h : List.Forall₂ d.Contributes ts ws) {before : List (Tensor α)}
    {u : Tensor α} (hu : SumOf before u) (hbase : ∀ v ∈ before, v.base = d.base)
    (hjoin : Join (before ++ ws) batch middle) :
    ∃ r, (ts.forM accumulate).outcome { d with value := some u } =
      (.ok (), { d with value := some r }) ∧ SumOf (before ++ ws) r := by
  induction h generalizing before u with
  | nil => exact ⟨u, rfl, by rwa [List.append_nil]⟩
  | @cons t w ts ws ht _ ih =>
    have hsplit : before ++ w :: ws = (before ++ [w]) ++ ws := by simp
    rw [hsplit] at hjoin ⊢
    obtain ⟨batch', middle', hnext⟩ := hjoin.of_append
    have hbases : ∀ v ∈ before ++ [w], v.base = d.base :=
      List.forall_mem_append.2 ⟨hbase, bases_of_terms (.cons ht .nil)⟩
    obtain ⟨u', hu', hsum⟩ := hu.exists_add hnext (broadcastAll_bases (by simp) hbases)
    obtain ⟨r, hr, hall⟩ := ih hsum hbases hjoin
    refine ⟨r, ?_, hall⟩
    rw [Update.outcome_eq_ok] at hr ⊢
    exact Update.bind_eq_ok.2 ⟨(), _, Update.outcome_eq_ok.1 (ht.add hu'), hr⟩

theorem exists_accumulated (h : List.Forall₂ d.Contributes ts ws) (hnone : d.value = none)
    (hne : ts ≠ []) (hjoin : Join ws batch middle) :
    ∃ r, (ts.forM accumulate).outcome d = (.ok (), { d with value := some r }) ∧ SumOf ws r := by
  cases h with
  | nil => exact absurd rfl hne
  | @cons t w ts ws ht hrest =>
    have hfirst := bases_of_terms (.cons ht .nil)
    obtain ⟨r, hr, hsum⟩ := forM_accumulate hrest (sumOf_single w) hfirst hjoin
    refine ⟨r, ?_, hsum⟩
    rw [Update.outcome_eq_ok] at hr ⊢
    exact Update.bind_eq_ok.2 ⟨(), _, Update.outcome_eq_ok.1 (ht.store hnone), hr⟩

/-- Contributions to an undefined derivative that could each be assigned to it, and that broadcast
together once expanded, are accumulated in any order. What is stored is the same for every order:
the sum of the expanded contributions, tier by tier, and nothing where there are none. -/
theorem accumulate_orderFree (hnone : d.value = none)
    (hassign : List.Forall₂ (fun t w => (assign t).outcome d = (.ok (), { d with value := some w }))
      ts ws) (hjoin : Join ws batch middle) :
    ∃ value, (∀ ts' : List (Tensor α), ts'.Perm ts →
        (ts'.forM accumulate).outcome d = (.ok (), { d with value := value })) ∧
      (value = none ↔ ts = []) ∧ ∀ r, value = some r → SumOf ws r ∧ r.base = d.base := by
  have hterms : List.Forall₂ d.Contributes ts ws := hassign.imp fun _ _ => contributes_of_assign
  by_cases hne : ts = []
  · subst hne
    refine ⟨none, fun ts' hperm => ?_, by simp, fun r hr => nomatch hr⟩
    rw [List.perm_nil.1 hperm, ← hnone]
    rfl
  · obtain ⟨r, -, hsum⟩ := exists_accumulated hterms hnone hne hjoin
    refine ⟨some r, fun ts' hperm => ?_, by simp [hne], fun r' hr' => ?_⟩
    · obtain ⟨ws', hterms', hperm'⟩ := List.perm_comp_forall₂ hperm hterms
      have hne' : ts' ≠ [] := fun h => hne (List.perm_nil.1 (h ▸ hperm.symm))
      obtain ⟨r', hr', hsum'⟩ := exists_accumulated hterms' hnone hne' ((join_perm hperm').2 hjoin)
      rw [hr', SumOf.unique hperm' hsum' hsum]
    · cases hr'
      refine ⟨hsum, ?_⟩
      have hws : ws ≠ [] := fun h => hne (by simpa [h] using hterms)
      exact Except.ok.inj (hsum.base.symm.trans (broadcastAll_bases hws (bases_of_terms hterms)))

/-- One factor for all places, one row for each of two instances, and a column of factors. -/
def mixedContributions : List (Tensor ℚ) :=
  [.full [] [] [] 5, ⟨[2], [2], [], #[1, 2, 3, 6], rfl⟩, ⟨[], [3, 1], [], #[10, 20, 30], rfl⟩]

def expansionOf (t : Tensor ℚ) : Tensor ℚ :=
  ((assign t).outcome (pairDeclaration 1)).2.value.getD t

theorem mixedContributions_orderFree :
    (∀ t ∈ mixedContributions, (assign t).outcome (pairDeclaration 1) =
        (.ok (), { pairDeclaration 1 with value := some (expansionOf t) })) ∧
      Join (mixedContributions.map expansionOf) [2] [3, 2] ∧
      ∃ r, (∀ ts' : List (Tensor ℚ), ts'.Perm mixedContributions →
          (ts'.forM accumulate).outcome (pairDeclaration 1) =
            (.ok (), { pairDeclaration 1 with value := some r })) ∧
        r.batch = [2] ∧ r.middle = [3, 2] ∧ r.entry [1, 2, 0] = 5 + 3 + 30 := by
  have hassign : ∀ t ∈ mixedContributions, (assign t).outcome (pairDeclaration 1) =
      (.ok (), { pairDeclaration 1 with value := some (expansionOf t) }) := by
    simp only [mixedContributions, List.forall_mem_cons]
    exact ⟨Prod.ext rfl rfl, Prod.ext rfl rfl, Prod.ext rfl rfl, by simp⟩
  have hjoin : Join (mixedContributions.map expansionOf) [2] [3, 2] := ⟨rfl, rfl⟩
  have hterms : List.Forall₂ (fun t w => (assign t).outcome (pairDeclaration 1) =
      (.ok (), { pairDeclaration 1 with value := some w }))
      mixedContributions (mixedContributions.map expansionOf) := by
    rw [List.forall₂_map_right_iff, List.forall₂_same]
    exact hassign
  obtain ⟨value, hrun, hnone, hvalue⟩ := accumulate_orderFree rfl hterms hjoin
  obtain ⟨r, rfl⟩ := Option.ne_none_iff_exists'.1 fun h => absurd (hnone.1 h) (by decide)
  obtain ⟨hsum, hbase⟩ := hvalue r rfl
  have hbatch : r.batch = [2] := Except.ok.inj (hsum.join.batch.symm.trans hjoin.batch)
  have hmiddle : r.middle = [3, 2] := Except.ok.inj (hsum.join.middle.symm.trans hjoin.middle)
  refine ⟨hassign, hjoin, r, hrun, hbatch, hmiddle, ?_⟩
  have hentry := hsum.entry (b := [1]) (w := [2, 0]) (e := []) (by rw [hbatch]; decide)
    (by rw [hmiddle]; decide) (by rw [hbase]; trivial)
  exact hentry.trans (by decide +kernel)

end TieredCalculus.Derivative
