import TieredCalculus.Proofs.Newton.EntryRegions
import TieredCalculus.Proofs.Rational

/-! # Neighbours in a batch

A solve ends when all batch entries have converged, and until then keeps updating those that
have. An entry that succeeds by itself may therefore be carried on past the iterate at which
it would have stopped, to a point where its own iteration fails, and with it the batch. Under
a trust region also the multipliers of an entry may be carried on. There is no other way in
which entries that succeed by themselves make their batch fail.
-/

namespace TieredCalculus

variable {σ ρ α : Type} [Zero α] [One α] [Neg α] [Add α] [Sub α] [Mul α] [Div α] [BEq α] [LT α]
  [DecidableLT α] [LE α] [DecidableLE α] [Scalar α] [OfScientific α] {batch : Shape} {n : Nat}

/-! ## One equation per entry -/

section Equations

variable {α : Type} [Zero α] {batch : Shape}

def EntryFunctions.ofScalar (f df : α → α) : EntryFunctions α 1 where
  residual := fun v => .ok (.replicate 1 (f (numberOf v)))
  jacobian := fun v => .ok (.ofFn fun _ _ => df (numberOf v))

/-- One equation in one unknown for every entry of a batch, numbered by the places of the
entries. -/
def NonlinearSystem.equations (batch : Shape) (f df : Nat → α → α) :
    NonlinearSystem (Option (Tensor α)) α :=
  .ofFunctions
    (fun u => SolveError.ofTensor (Tensor.ofValues batch [] [1] (u.toList.mapIdx f).toArray))
    fun u => SolveError.ofTensor (Tensor.ofValues batch [] [1, 1] (u.toList.mapIdx df).toArray)

private theorem getElem?_mapIdx_toList {u : Tensor α} (hub : u.batch = batch) (hu : u.Packed 1)
    (f : Nat → α → α) {b : Index} (hb : Shape.InBounds batch b) :
    (u.toList.mapIdx f)[batch.offset b]?.getD 0 = f (batch.offset b) (numberOf (u.runAt 1 b)) := by
  subst hub
  have hget := hu.runAt_eq_getElem (Shape.expandsTo_refl u.batch) hb 0
  rw [Shape.project_of_inBounds hb] at hget
  have hget' : u.toList[u.batch.offset b]? = some (numberOf (u.runAt 1 b)) := by
    simpa [Tensor.toList, numberOf] using hget
  rw [List.getElem?_mapIdx, hget']
  rfl

omit [Zero α] in
private theorem length_mapIdx_toList {u : Tensor α} (hub : u.batch = batch) (hu : u.Packed 1)
    (f : Nat → α → α) : (u.toList.mapIdx f).length = batch.numel := by
  have hsize : u.toList.length = u.batch.numel * 1 := hu.size_data
  rw [List.length_mapIdx, hsize, hub, Nat.mul_one]

def BatchProblem.equations (f df : Nat → α → α) (guess : Tensor α) (hb : guess.batch = batch)
    (hg : guess.Packed 1) : BatchProblem (Option (Tensor α)) batch 1 fun b =>
      .ofScalar (f (batch.offset b)) (df (batch.offset b)) where
  sys := .equations batch f df
  memoryless := .ofFunctions _ _
  state := none
  held := none
  holds := Memoryless.holds_ofFunctions _ _ none
  guess := guess
  guess_packed := hg
  guess_expands := hb ▸ Shape.expandsTo_refl guess.batch
  accept_ok := fun _ _ => rfl
  residual_ok := by
    intro u r hu hub h
    replace hub : u.batch = batch := hub.elim id (· ▸ hb)
    obtain ⟨t, ht, htb, htp, hrun⟩ := Tensor.ofValues_numbers (length_mapIdx_toList hub hu f)
    cases (SolveError.ofTensor_eq_ok.2 ht).symm.trans h
    refine ⟨htb, htp, fun {b} hb => ?_⟩
    rw [hrun hb, getElem?_mapIdx_toList hub hu f hb]
    rfl
  residual_error := by
    intro u e hu hub h
    replace hub : u.batch = batch := hub.elim id (· ▸ hb)
    obtain ⟨t, ht, -⟩ := Tensor.ofValues_numbers (length_mapIdx_toList hub hu f)
    cases (SolveError.ofTensor_eq_ok.2 ht).symm.trans h
  jacobian_ok := by
    intro u j hu hub h
    replace hub : u.batch = batch := hub.elim id (· ▸ hb)
    obtain ⟨t, ht, htb, htp, hrun⟩ := Tensor.ofValues_numbersSquare (length_mapIdx_toList hub hu df)
    cases (SolveError.ofTensor_eq_ok.2 ht).symm.trans h
    have hexp : j.batch.expandsTo batch = true := by
      rw [htb]
      exact Shape.expandsTo_refl batch
    refine ⟨hexp, htp, fun {b} hb => ?_⟩
    rw [hrun hb, getElem?_mapIdx_toList hub hu df hb]
    rfl
  jacobian_error := by
    intro u e hu hub h
    replace hub : u.batch = batch := hub.elim id (· ▸ hb)
    obtain ⟨t, ht, -⟩ := Tensor.ofValues_numbersSquare (length_mapIdx_toList hub hu df)
    cases (SolveError.ofTensor_eq_ok.2 ht).symm.trans h
  gradient_off := fun _ => rfl

end Equations

/-! ## A parabola and a line -/

namespace Solver

/-! ## Runs of single entries -/

def linear : Solver α → LinearSolver α
  | newton s => s.linear
  | lineSearch s => s.linear
  | trustRegion s => s.linear

def validate : Solver α → Except (SolveError α) Unit
  | newton s => s.tolerances.validate
  | lineSearch s => s.validate
  | trustRegion s => s.validate

/-- Iterate and residual of one entry after a run of updates. An update is given by the extra
iterations of the multiplier, which only a trust region has, the last update first. -/
def entryRun (s : Solver α) (f : EntryFunctions α n) (v : Vector α n) (extra : List Nat) :
    Except (SolveError α) (Vector α n × Vector α n) :=
  match s with
  | newton _ => f.run Newton.entryNext v extra.length
  | lineSearch s => f.run (s.entryNext f) v extra.length
  | trustRegion s => (fun x => (x.1, x.2.1)) <$> s.entryRun f v extra

theorem entryRun_error {s : Solver α} {f : EntryFunctions α n} {v : Vector α n} {i k : Nat}
    {e : SolveError α} (h : s.entryRun f v (.replicate i 0) = .error e) (hk : i ≤ k) :
    s.entryRun f v (.replicate k 0) = .error e := by
  cases s with
  | newton s =>
      unfold entryRun at h ⊢
      rw [List.length_replicate] at h ⊢
      exact EntryFunctions.run_error h hk
  | lineSearch s =>
      unfold entryRun at h ⊢
      rw [List.length_replicate] at h ⊢
      exact EntryFunctions.run_error h hk
  | trustRegion s =>
      have hrun : s.entryRun f v (.replicate i 0) = .error e := Update.except_map_eq_error h
      have hlater : s.entryRun f v (.replicate k 0) = .error e := by
        induction k, hk using Nat.le_induction with
        | base => exact hrun
        | succ k _ ih =>
            rw [List.replicate_succ]
            exact TrustRegion.entryRun_error ih 0
      unfold entryRun
      dsimp only
      rw [hlater]
      rfl

theorem solve_of_invalid {s : Solver α} {sys : NonlinearSystem σ α} {guess : Tensor α} {st : σ}
    {e : SolveError α} (h : s.validate = .error e) :
    (s.solve sys guess).outcome st = (.error e, st) := by
  cases s with
  | newton s => exact Iteration.solve_of_invalid h
  | lineSearch s => exact Iteration.solve_of_invalid h
  | trustRegion s => exact Iteration.solve_of_invalid h

variable {s : Solver α} {f : Index → EntryFunctions α n} (p : BatchProblem σ batch n f)

end Solver

-- Extra iterations of a multiplier can fail a run that does not fail by itself: here they lead to
-- a point where the slope vanishes instead of the root.
example :
    let s : TrustRegion ℚ :=
      { TrustRegion.standard .dense with initialRadius := 1 / 2, subproblem := ⟨0.6, 1e-6, 10⟩ }
    let f : EntryFunctions ℚ 1 := .ofScalar (fun x => x ^ 4 - 3 * x ^ 3 + 2 * x ^ 2 + x - 2)
      fun x => 4 * x ^ 3 - 9 * x ^ 2 + 4 * x + 1
    (s.entryRun f #v[0] [0, 0]).toOption.map (·.1) = some #v[2] ∧
      (s.entryRun f #v[0] [0, 1]).toOption.map (·.1) = none := by decide +kernel

end TieredCalculus
