import TieredCalculus.Proofs.Newton.Descent
import TieredCalculus.Proofs.Newton.EntryRegions

/-! # Radii along a run

Whatever the system does, every entry of a trust region keeps a positive radius below the cap.
One update shrinks, grows or keeps the radius of an entry by the entry's own ratio, and by the
same ratio the entry goes to the end of its step or stays.
-/

namespace TieredCalculus

variable {σ α : Type}

/-- Residuals have as many numbers for every batch entry as the solution last set. -/
def NonlinearSystem.KeepsWidth (sys : NonlinearSystem σ α) (n : Nat) : Prop :=
  ∀ {u r : Tensor α} {s s₁ s₂ : σ}, u.Packed n → sys.setSolution u s = .ok () s₁ →
    sys.residual s₁ = .ok r s₂ → r.Packed n

/-- Solutions have as many numbers for every batch entry as the right-hand side. -/
def LinearSolver.KeepsWidth (linear : LinearSolver α) : Prop :=
  ∀ {j b x : Tensor α} {n : Nat}, linear.solve j b = .ok x → b.Packed n → x.Packed n

theorem LinearSolver.dense_keepsWidth [Zero α] [Neg α] [Sub α] [Mul α] [Div α] [LT α]
    [DecidableLT α] [LE α] [DecidableLE α] [OfScientific α] :
    (dense : LinearSolver α).KeepsWidth := by
  intro j b x n h hb
  obtain ⟨n', batch, -, hb', -, -, hx, -⟩ := solveDense_eq_ok h
  cases hb'.2.symm.trans hb.2
  exact hx

theorem NonlinearSystem.entrywise_keepsWidth (f : α → α) (j : Tensor α) (n : Nat) :
    (entrywise f j).KeepsWidth n := by
  intro u r s s₁ s₂ hu hset hr
  cases hset
  cases hr
  exact hu

theorem Scalar.least_eq_min [LinearOrder α] [BEq α] [ReflBEq α] (x y : α) :
    Scalar.least x y = min x y := by
  unfold Scalar.least
  by_cases h : y < x
  · rw [if_pos h, min_eq_right h.le]
  · rw [if_neg h, if_pos (BEq.rfl : (x == x) = true), min_eq_left (not_lt.1 h)]

namespace TrustRegion

/-! ## One update -/

/-- Repeated for a batch, a radius is read in it as it was read before. -/
theorem radiusAt_repeatRadius [Zero α] {batch larger : Shape}
    {delta : List α} {k : Index} (hexp : batch.expandsTo larger = true)
    (hdelta : delta.length = batch.numel)
    (hrepeat : (repeatRadius larger.numel delta).length = larger.numel)
    (hk : Shape.InBounds larger k) :
    radiusAt larger (repeatRadius larger.numel delta) k =
      radiusAt batch delta (batch.project k) := by
  have hsame : batch.numel = larger.numel →
      radiusAt larger delta k = radiusAt batch delta (batch.project k) := by
    intro hnumel
    unfold radiusAt
    rw [Shape.offset_project_of_numel_eq hexp hnumel hk]
  rcases delta with _ | ⟨d, _ | ⟨d', rest⟩⟩
  · exact hsame (hdelta.symm.trans hrepeat)
  · -- The batch has one entry, whose radius all entries take.
    have hlt := Shape.offset_lt (Shape.project_inBounds hexp hk)
    rw [← hdelta] at hlt
    have hzero : batch.offset (batch.project k) = 0 := Nat.lt_one_iff.1 hlt
    unfold radiusAt repeatRadius
    dsimp only
    rw [hzero, List.getElem?_replicate, if_pos (Shape.offset_lt hk)]
    rfl
  · exact hsame (hdelta.symm.trans hrepeat)

section Shapes

variable [Zero α] [One α] [Neg α] [Add α] [Sub α] [Mul α] [Div α] [LT α] [DecidableLT α] [LE α]
  [DecidableLE α] [Scalar α] [OfScientific α] {s : TrustRegion α} {batch : Shape}
  {r j d : Tensor α} {delta : List α} {n : Nat}

theorem length_of_direction (h : s.direction batch r j delta = .ok d) :
    delta.length = batch.numel := by
  obtain ⟨_, -, h⟩ := Update.except_bind_eq_ok.1 h
  obtain ⟨_, -, h⟩ := Update.except_bind_eq_ok.1 h
  obtain ⟨_, hsub, -⟩ := Update.except_bind_eq_ok.1 h
  exact Subproblem.length_of_create hsub

theorem direction_keepsWidth (hlin : s.linear.KeepsWidth) (hr : r.Packed n)
    (h : s.direction batch r j delta = .ok d) : d.batch = batch ∧ d.Packed n := by
  obtain ⟨x, hx, h⟩ := Update.except_bind_eq_ok.1 h
  obtain ⟨newton, hnewton, h⟩ := Update.except_bind_eq_ok.1 h
  obtain ⟨sub, -, h⟩ := Update.except_bind_eq_ok.1 h
  have hxp : x.Packed n := hlin hx ⟨hr.1, hr.2⟩
  obtain ⟨-, hnb, hnp, -⟩ := hxp.expandBatch (SolveError.ofTensor_eq_ok.1 hnewton)
  by_cases hall : sub.inside.all id = true
  · rw [if_pos hall] at h
    cases h
    exact ⟨hnb, hnp⟩
  · rw [if_neg hall] at h
    obtain ⟨_, -, h⟩ := Update.except_bind_eq_ok.1 h
    obtain ⟨_, -, h⟩ := Update.except_bind_eq_ok.1 h
    obtain ⟨hdb, hdm, hdn, -⟩ := Tensor.ofValues_eq_ok.1 (SolveError.ofTensor_eq_ok.1 h)
    rw [hnp.baseNumel_eq] at hdn
    exact ⟨hdb, hdm, hdn⟩

end Shapes

section Entries

variable [Field α] [LinearOrder α] [Scalar α] {s : TrustRegion α} {sys : NonlinearSystem σ α}
  {u r j u' : Tensor α} {st st' : σ} {n : Nat} {m : Move α} {delta delta' : List α} {d : α}

/-- The reduction ratio of the batch entry at an index. -/
def Move.ratioOf (m : Move α) (k : Index) : α := m.ratio m.value.baseNumel (m.batch.offset k)

theorem Move.Computed.next_batch (hm : m.Computed s sys u r j st st' u') : u'.batch = m.batch :=
  (Tensor.ofValues_eq_ok.1 hm.merged).1

theorem Move.Computed.moved_run (hm : m.Computed s sys u r j st st' u') (hu : u.Packed n)
    (hdb : m.direction.batch = m.batch) (hd : m.direction.Packed n) {k : Index}
    (hk : Shape.InBounds m.batch k) :
    m.moved.runAt n k = Vector.zipWith (· + ·) (u.runAt n k) (m.direction.runAt n k) := by
  obtain ⟨w, hw, hmoved⟩ := hm.moved
  obtain ⟨hwb, hwp, hrun⟩ := (hu.zipWith _ hd).1 hw
  rw [hdb, Shape.broadcast_of_expandsTo hm.expandsTo.1] at hwb
  have hwb' : m.batch = w.batch := Except.ok.inj hwb
  obtain ⟨-, -, -, hmrun⟩ := hwp.expandBatch hmoved
  rw [hmrun (Shape.expandsTo_refl m.batch) hk]
  exact hrun (hwb' ▸ hk)

/-- An entry goes to the end of its step where its ratio is large enough, and stays elsewhere. -/
theorem Move.Computed.next_entry (hm : m.Computed s sys u r j st st' u') (hu : u.Packed n)
    (hr : r.Packed n) (hlin : s.linear.KeepsWidth) :
    u'.Packed n ∧ ∀ {k : Index}, Shape.InBounds m.batch k → u'.runAt n k =
      if s.acceptFrom ≤ m.ratioOf k then
        Vector.zipWith (· + ·) (u.runAt n k) (m.direction.runAt n k)
      else u.runAt n k := by
  obtain ⟨hdb, hd⟩ := direction_keepsWidth hlin hr hm.direction
  obtain ⟨-, hup, -, -, hnext⟩ := hm.next_run hu hd
  obtain ⟨-, -, hvp, hvrun⟩ := hu.expandBatch hm.value
  refine ⟨hup, fun {k} hk => ?_⟩
  rw [hnext hk, hm.moved_run hu hdb hd hk, hvrun (Shape.expandsTo_refl m.batch) hk, Move.ratioOf,
    hvp.baseNumel_eq]

variable [IsStrictOrderedRing α] [BEq α] [ReflBEq α]

omit [IsStrictOrderedRing α] [Scalar α] in
theorem nextRadius_eq (s : TrustRegion α) (rho d : α) : s.nextRadius rho d =
    if rho < s.reduceBelow then s.reduceFactor * d
    else if s.expandAbove < rho then min (s.expandFactor * d) s.maxRadius
    else d := by
  unfold nextRadius
  rw [Scalar.least_eq_min]

def Within (s : TrustRegion α) (d : α) : Prop := 0 < d ∧ d ≤ s.maxRadius

omit [Scalar α] in
theorem Within.nextRadius (hv : s.validate = .ok ()) (hd : s.Within d) (rho : α) :
    s.Within (s.nextRadius rho d) := by
  obtain ⟨-, -, -, ⟨hreduce, hreduce₁⟩, hexpand⟩ := validate_eq_ok.1 hv
  obtain ⟨hpos, hle⟩ := hd
  rw [nextRadius_eq]
  by_cases hlow : rho < s.reduceBelow
  · rw [if_pos hlow]
    exact ⟨mul_pos hreduce hpos, (mul_le_of_le_one_left hpos.le hreduce₁.le).trans hle⟩
  rw [if_neg hlow]
  by_cases hhigh : s.expandAbove < rho
  · rw [if_pos hhigh]
    have hgrown : 0 < s.expandFactor * d := mul_pos (zero_lt_one.trans hexpand) hpos
    exact ⟨lt_min hgrown (hpos.trans_le hle), min_le_right _ _⟩
  · rw [if_neg hhigh]
    exact ⟨hpos, hle⟩

/-- An update changes every radius by the ratio of its entry, and leaves all of them within the
bounds. -/
theorem update_radii (hv : s.validate = .ok ()) (hlength : delta.length = u.batch.numel)
    (hdelta : ∀ d ∈ delta, s.Within d)
    (h : s.update sys u r j (st, delta) = .ok u' (st', delta')) :
    ∃ m : Move α, m.Computed s sys u r j st st' u' ∧
      m.radii = repeatRadius m.batch.numel delta ∧ delta'.length = m.batch.numel ∧
      (∀ d ∈ delta', s.Within d) ∧ ∀ {k : Index}, Shape.InBounds m.batch k →
        radiusAt m.batch delta' k =
          s.nextRadius (m.ratioOf k) (radiusAt u.batch delta (u.batch.project k)) := by
  obtain ⟨m, hm, hradii, rfl⟩ := update_eq_ok h
  have hrepeat : (repeatRadius m.batch.numel delta).length = m.batch.numel :=
    hradii ▸ length_of_direction hm.direction
  rw [hradii]
  refine ⟨m, hm, hradii, ?_, fun d hd => ?_, fun {k} hk => ?_⟩
  · rw [List.length_zipWith, List.length_map, List.length_range, hrepeat, Nat.min_self]
  · rw [← List.map_uncurry_zip_eq_zipWith] at hd
    obtain ⟨⟨rho, d₀⟩, hmem, rfl⟩ := List.mem_map.1 hd
    exact (hdelta d₀ (mem_of_mem_repeatRadius (List.of_mem_zip hmem).2)).nextRadius hv rho
  · rw [radiusAt_zipWith hrepeat hk, radiusAt_repeatRadius hm.expandsTo.1 hlength hrepeat hk]
    rfl

/-! ## Runs -/

/-- A head has one radius for every entry of its iterate, positive and at most the cap. -/
structure Bounded (s : TrustRegion α) (h : Head σ (List α) α) (delta : List α) : Prop where
  data : h.data = .ok delta
  length : delta.length = h.value.batch.numel
  within : ∀ d ∈ delta, s.Within d

variable {guess : Tensor α} {i : Nat} {h h' : Head σ (List α) α}

omit [ReflBEq α] [IsStrictOrderedRing α] in
theorem bounded_start (hv : s.validate = .ok ())
    (hh : Iteration.headAt s.iteration sys guess st 0 = .ok h) :
    s.Bounded h (List.replicate h.value.batch.numel s.initialRadius) := by
  obtain ⟨-, -, hinitial, -⟩ := validate_eq_ok.1 hv
  refine ⟨(Iteration.headAt_zero_eq_ok hh).2, List.length_replicate, fun d hd => ?_⟩
  rw [(List.mem_replicate.1 hd).2]
  exact hinitial

theorem bounded_step (hv : s.validate = .ok ())
    (hh : Iteration.headAt s.iteration sys guess st i = .ok h)
    (hh' : Iteration.headAt s.iteration sys guess st (i + 1) = .ok h') (hb : s.Bounded h delta) :
    ∃ (m : Move α) (j : Tensor α) (st₁ st₂ st₃ : σ) (delta' : List α),
      sys.jacobian h.state = .ok j st₁ ∧ m.Computed s sys h.value h.residual j st₁ st₂ h'.value ∧
      m.radii = repeatRadius m.batch.numel delta ∧
      sys.setSolution h'.value st₂ = .ok () st₃ ∧ sys.residual st₃ = .ok h'.residual h'.state ∧
      s.Bounded h' delta' ∧ ∀ {k : Index}, Shape.InBounds m.batch k →
        radiusAt m.batch delta' k = s.nextRadius (m.ratioOf k)
          (radiusAt h.value.batch delta (h.value.batch.project k)) := by
  obtain ⟨delta₀, delta', j, st₁, st₂, st₃, hdata, hdata', hj, hu, hset, hr⟩ := head_updates hh hh'
  cases hdata.symm.trans hb.data
  obtain ⟨m, hm, hradii, hlength, hwithin, hradius⟩ := update_radii hv hb.length hb.within hu
  have hbounded : s.Bounded h' delta' := ⟨hdata', hm.next_batch ▸ hlength, hwithin⟩
  exact ⟨m, j, st₁, st₂, st₃, delta', hj, hm, hradii, hset, hr, hbounded, hradius⟩

theorem headAt_bounded (hv : s.validate = .ok ())
    (hh : Iteration.headAt s.iteration sys guess st i = .ok h) : ∃ delta, s.Bounded h delta := by
  induction i generalizing h with
  | zero => exact ⟨_, bounded_start hv hh⟩
  | succ i ih =>
      obtain ⟨h₀, hh₀, -⟩ := Update.except_bind_eq_ok.1 hh
      obtain ⟨delta, hb⟩ := ih hh₀
      obtain ⟨m, j, st₁, st₂, st₃, delta', -, -, -, -, -, hb', -⟩ := bounded_step hv hh₀ hh hb
      exact ⟨delta', hb'⟩

omit [IsStrictOrderedRing α] [ReflBEq α] in
theorem headAt_packed (hlin : s.linear.KeepsWidth) (hsys : sys.KeepsWidth n)
    (hguess : guess.Packed n) (hh : Iteration.headAt s.iteration sys guess st i = .ok h) :
    h.value.Packed n ∧ h.residual.Packed n := by
  induction i generalizing h with
  | zero =>
      obtain ⟨st₁, batch, hset, hr, -, hu⟩ :=
        Iteration.start_eq_ok.1 (Iteration.headAt_zero_eq_ok hh).1
      obtain ⟨-, -, hup, -⟩ := hguess.expandBatch hu
      exact ⟨hup, hsys hguess hset hr⟩
  | succ i ih =>
      obtain ⟨h₀, hh₀, -⟩ := Update.except_bind_eq_ok.1 hh
      obtain ⟨m, _, j, st₁, st₂, st₃, -, -, hm, -, hset, hr⟩ := head_moves hh₀ hh
      obtain ⟨hu, hr₀⟩ := ih hh₀
      obtain ⟨hup, -⟩ := hm.next_entry hu hr₀ hlin
      exact ⟨hup, hsys hup hset hr⟩

/-- At every head of a run each entry has a positive radius, at most the cap. The move after it
is the one of these radii: the update reads the radius of an entry where the entry was in the
smaller batch, multiplies it by one of the factors, the larger one under the cap, or keeps it,
and takes the entry to the end of its step or leaves it, each by the entry's own ratio. -/
theorem radii_bounded (hv : s.validate = .ok ())
    (hh : Iteration.headAt s.iteration sys guess st i = .ok h) :
    ∃ delta, s.Bounded h delta ∧
      ∀ {h'}, Iteration.headAt s.iteration sys guess st (i + 1) = .ok h' →
        ∃ (m : Move α) (j : Tensor α) (st₁ st₂ : σ) (delta' : List α),
          sys.jacobian h.state = .ok j st₁ ∧
          m.Computed s sys h.value h.residual j st₁ st₂ h'.value ∧
          m.radii = repeatRadius m.batch.numel delta ∧ s.Bounded h' delta' ∧
          h'.value.batch = m.batch ∧ ∀ {k : Index}, Shape.InBounds m.batch k →
            (radiusAt m.batch delta' k =
              let d := radiusAt h.value.batch delta (h.value.batch.project k)
              if m.ratioOf k < s.reduceBelow then s.reduceFactor * d
              else if s.expandAbove < m.ratioOf k then min (s.expandFactor * d) s.maxRadius
              else d) ∧
            ∀ {n}, s.linear.KeepsWidth → sys.KeepsWidth n → guess.Packed n →
              h'.value.runAt n k =
                if s.acceptFrom ≤ m.ratioOf k then
                  Vector.zipWith (· + ·) (h.value.runAt n k) (m.direction.runAt n k)
                else h.value.runAt n k := by
  obtain ⟨delta, hb⟩ := headAt_bounded hv hh
  refine ⟨delta, hb, fun {h'} hh' => ?_⟩
  obtain ⟨m, j, st₁, st₂, st₃, delta', hj, hm, hradii, -, -, hb', hradius⟩ :=
    bounded_step hv hh hh' hb
  refine ⟨m, j, st₁, st₂, delta', hj, hm, hradii, hb', hm.next_batch, fun {k} hk => ⟨?_, ?_⟩⟩
  · rw [hradius hk, nextRadius_eq]
  · intro n hlin hsys hguess
    obtain ⟨hu, hr⟩ := headAt_packed hlin hsys hguess hh
    obtain ⟨-, hentry⟩ := hm.next_entry hu hr hlin
    exact hentry hk

end Entries

/-- The one radius of the guess becomes two, of which the first shrinks where the step of its
entry is rejected, and the second would leave the cap and is kept at it. -/
theorem steep_radii :
    let guess : Tensor ℚ := ⟨[], [], [1], #[0], rfl⟩
    let it : Iteration (Option (Tensor ℚ)) (List ℚ) ℚ := wide.iteration
    wide.validate = .ok () ∧ wide.linear.KeepsWidth ∧ steep.KeepsWidth 1 ∧ guess.Packed 1 ∧
      ∃ h h', it.headAt steep guess none 0 = .ok h ∧ it.headAt steep guess none 1 = .ok h' ∧
        wide.Bounded h [100] ∧ wide.Bounded h' [25, 100] ∧ h'.value.toList = [0, 1] ∧
        ∃ m : Move ℚ, m.batch = [2] ∧ m.radii = [100, 100] ∧
          ∀ {k : Index}, Shape.InBounds m.batch k →
            (radiusAt m.batch [25, 100] k =
              let d := radiusAt h.value.batch [100] (h.value.batch.project k)
              if m.ratioOf k < wide.reduceBelow then wide.reduceFactor * d
              else if wide.expandAbove < m.ratioOf k then min (wide.expandFactor * d) wide.maxRadius
              else d) ∧
            h'.value.runAt 1 k = if wide.acceptFrom ≤ m.ratioOf k then
              Vector.zipWith (· + ·) (h.value.runAt 1 k) (m.direction.runAt 1 k)
            else h.value.runAt 1 k := by
  intro guess it
  have hv : wide.validate = .ok () := by
    apply validate_eq_ok.2
    refine ⟨Tolerances.validate_eq_ok.2 ?_, Tolerances.validate_eq_ok.2 ?_, ?_, ?_, ?_⟩ <;>
      decide +kernel
  have hlin : wide.linear.KeepsWidth := LinearSolver.dense_keepsWidth
  have hsys : steep.KeepsWidth 1 := NonlinearSystem.entrywise_keepsWidth _ _ 1
  have hguess : guess.Packed 1 := ⟨rfl, rfl⟩
  have hfirst : (it.headAt steep guess none 0).toOption.bind (·.data.toOption) =
      some [100] := by decide +kernel
  have hsecond : (it.headAt steep guess none 1).toOption.map (fun h => (h.value.batch,
      h.data.toOption, h.value.toList)) = some ([2], some [25, 100], [0, 1]) := by decide +kernel
  refine ⟨hv, hlin, hsys, hguess, ?_⟩
  cases hh : it.headAt steep guess none 0 with
  | error e =>
      rw [hh] at hfirst
      cases hfirst
  | ok h =>
      cases hh' : it.headAt steep guess none 1 with
      | error e =>
          rw [hh'] at hsecond
          cases hsecond
      | ok h' =>
          rw [hh] at hfirst
          rw [hh'] at hsecond
          obtain ⟨hbatch, hrest⟩ := Prod.mk.inj (Option.some.inj hsecond)
          obtain ⟨hdata, hvalues⟩ := Prod.mk.inj hrest
          obtain ⟨delta, hb, hnext⟩ := radii_bounded hv hh
          obtain ⟨m, j, st₁, st₂, delta', -, -, hradii, hb', hmb, hentry⟩ := hnext hh'
          replace hfirst : h.data.toOption = some [100] := hfirst
          rw [hb.data] at hfirst
          rw [hb'.data] at hdata
          cases Option.some.inj hfirst
          cases Option.some.inj hdata
          have hm : m.batch = [2] := hmb.symm.trans hbatch
          rw [hm] at hradii
          refine ⟨h, h', rfl, rfl, hb, hb', hvalues, m, hm, hradii, fun {k} hk => ?_⟩
          obtain ⟨hradius, hvalue⟩ := hentry hk
          exact ⟨hradius, hvalue hlin hsys hguess⟩

end TrustRegion

end TieredCalculus
