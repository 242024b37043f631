import TieredCalculus.Proofs.Newton.Entries
import TieredCalculus.Proofs.Newton.Trials
import TieredCalculus.Proofs.Shape.Bounds

/-! # Steps of single entries

With dense factorization the full Newton step and the line search treat every batch entry on
its own. The search of a batch goes on until each of its entries has a sufficient trial; an
entry that has one keeps it in the meantime, so that its last trial is the one at which it
would have stopped alone.
-/

namespace TieredCalculus

variable {σ α : Type}

/-! ## The full step -/

section FullStep

variable [Zero α] [One α] [Neg α] [Add α] [Sub α] [Mul α] [Div α] [LT α] [DecidableLT α] [LE α]
  [DecidableLE α] [OfScientific α] {batch : Shape} {n : Nat}

def Lu.entryStep (r : Vector α n) (j : Square α n) : Except (SolveError α) (Vector α n) :=
  match Lu.factor? Lu.threshold j with
  | some lu => .ok (lu.solve (r.map (· * (-1))))
  | none => .error (.singularMatrix 0)

omit [Add α] in
/-- The dense solver finds the full steps of all entries, or refuses the matrix of one. -/
theorem LinearSolver.newtonStep_entries {r j : Tensor α} (hrb : r.batch = batch)
    (hr : r.Packed n) (hjb : j.batch.expandsTo batch = true) (hj : j.PackedSquare n) :
    (∀ x, (dense : LinearSolver α).newtonStep r j = .ok x →
      Collects batch (fun b => Lu.entryStep (r.runAt n b) (j.squareAt n b)) x) ∧
    ∀ e, (dense : LinearSolver α).newtonStep r j = .error e →
      EntryFails batch (fun b => Lu.entryStep (r.runAt n b) (j.squareAt n b)) e := by
  have hneg : r.neg.Packed n := hr
  have hbatch : Shape.broadcast j.batch r.neg.batch = .ok batch := by
    show Shape.broadcast j.batch r.batch = .ok batch
    rw [hrb]
    exact Shape.broadcast_of_expandsTo hjb
  constructor
  · intro x hx
    obtain ⟨n', batch', -, hb', hbatch', hxb, hxp, hrun⟩ := solveDense_eq_ok hx
    cases hneg.2.symm.trans hb'.2
    cases hbatch.symm.trans hbatch'
    refine ⟨hxb, hxp, fun {b} hb => ?_⟩
    obtain ⟨lu, hlu, hsolve⟩ := hrun hb
    have hmap : r.neg.runAt n b = (r.runAt n b).map (· * (-1)) :=
      hr.map_run _ (hrb ▸ Shape.expandsTo_refl batch) hb
    rw [Lu.entryStep, hlu, hsolve, hmap]
  · intro e he
    obtain ⟨b, hb, hnone, rfl⟩ := solveDense_eq_error hj hneg hbatch he
    refine ⟨b, .singularMatrix 0, hb, ?_, .inr ⟨rfl, rfl⟩⟩
    show Lu.entryStep (r.runAt n b) (j.squareAt n b) = _
    rw [Lu.entryStep, hnone]

def Newton.entryNext : EntryStep α n := fun u r j => do
  let d ← Lu.entryStep r j
  return Vector.zipWith (· + ·) u d

theorem Newton.stepsBy {f : Index → EntryFunctions α n} (p : BatchProblem σ batch n f)
    {s : Newton α} (hs : s.linear = .dense) :
    p.StepsBy s.iteration fun _ => Newton.entryNext := by
  intro u r j st w hub hu hrb hr hjb hj hw
  obtain ⟨hok, herr⟩ := LinearSolver.newtonStep_entries hrb hr hjb hj
  unfold Newton.iteration
  dsimp only
  rw [hs]
  refine (Update.ensures_lift (Q := fun d (st' : σ × Unit) => st' = (st, ()) ∧
    Collects batch (fun b => Lu.entryStep (r.runAt n b) (j.squareAt n b)) d)
    (fun d hd => ⟨rfl, hok d hd⟩) fun e he => ?_).bind ?_
  · refine (herr e he).mono fun b e' hb hf => ?_
    unfold Newton.entryNext
    rw [hf]
    rfl
  · rintro d _ ⟨rfl, hd⟩
    obtain ⟨v, hv, hvb, hvp, hrun⟩ := hu.zipWith_same (· + ·) hd.packed (hd.batch_eq.trans hub.symm)
    rw [hub] at hvb hrun
    rw [Tensor.add, hv]
    refine ⟨⟨hvb, hvp, fun {b} hb => ?_⟩, w, hw⟩
    unfold Newton.entryNext
    rw [hd.run_eq hb, hrun hb]
    rfl

end FullStep

/-! ## The search of one entry -/

namespace LineSearch

/-- What a search starts from on one entry: the iterate, the direction, the squared norm of the
residual and the slope. -/
structure EntryStart (α : Type) (n : Nat) where
  iterate : Vector α n
  direction : Vector α n
  squared : α
  slope : α

section Entry

variable [Zero α] [One α] [Add α] [Sub α] [Mul α] [Div α] [LE α] [DecidableLE α] {n : Nat}

/-- The iterate of one entry moved along its direction. -/
def EntryStart.trial (x : EntryStart α n) (a : α) : Vector α n :=
  Vector.zipWith (fun u d => u + a * d) x.iterate x.direction

def sufficient (s : LineSearch α) (x : EntryStart α n) (a : α) (r : Vector α n) : Bool :=
  s.accepts a x.squared x.slope (Linear.dot r.toList r.toList)

/-- Tries step lengths on one entry, up to `retries` more times after the first. -/
def entryTrials (s : LineSearch α) (f : EntryFunctions α n) (x : EntryStart α n) :
    (retries : Nat) → α → Except (SolveError α) (Vector α n)
  | 0, a => do
    let _ ← f.residual (x.trial a)
    return x.trial a
  | retries + 1, a => do
    let r ← f.residual (x.trial a)
    if s.sufficient x a r then return x.trial a
    else s.entryTrials f x retries (a / s.cutback)

variable {s : LineSearch α} {f : EntryFunctions α n} {x : EntryStart α n} {a : α}

theorem entryTrials_error {e : SolveError α} (h : f.residual (x.trial a) = .error e)
    (retries : Nat) : s.entryTrials f x retries a = .error e := by
  cases retries with
  | zero => rw [entryTrials, h]; rfl
  | succ k => rw [entryTrials, h]; rfl

theorem entryTrials_last {r : Vector α n} (h : f.residual (x.trial a) = .ok r) :
    s.entryTrials f x 0 a = .ok (x.trial a) := by
  rw [entryTrials, h]
  rfl

theorem entryTrials_sufficient {r : Vector α n} (h : f.residual (x.trial a) = .ok r)
    (hs : s.sufficient x a r = true) (retries : Nat) :
    s.entryTrials f x retries a = .ok (x.trial a) := by
  cases retries with
  | zero => exact entryTrials_last h
  | succ k =>
      rw [entryTrials, h]
      exact if_pos hs

theorem entryTrials_cut {r : Vector α n} (h : f.residual (x.trial a) = .ok r)
    (hs : s.sufficient x a r = false) (retries : Nat) :
    s.entryTrials f x (retries + 1) a = s.entryTrials f x retries (a / s.cutback) := by
  rw [entryTrials, h]
  exact if_neg (by rw [hs]; exact Bool.false_ne_true)

/-- After a trial the search goes on with the step length that the verdict leaves. -/
theorem entryTrials_judged {r : Vector α n} (h : f.residual (x.trial a) = .ok r) (retries : Nat) :
    s.entryTrials f x (retries + 1) a =
      s.entryTrials f x retries (if s.sufficient x a r then a else a / s.cutback) := by
  cases hs : s.sufficient x a r with
  | true => rw [if_pos rfl, entryTrials_sufficient h hs, entryTrials_sufficient h hs]
  | false => rw [if_neg Bool.false_ne_true, entryTrials_cut h hs]

theorem entryTrials_of_width_zero {f : EntryFunctions α 0} {x : EntryStart α 0} {r : Vector α 0}
    (h : f.residual (x.trial a) = .ok r) (retries : Nat) :
    s.entryTrials f x retries a = .ok (x.trial a) := by
  have hsame : ∀ b c, x.trial b = x.trial c :=
    fun b c => Vector.ext fun i hi => absurd hi (Nat.not_lt_zero i)
  induction retries generalizing a with
  | zero => exact entryTrials_last h
  | succ k ih =>
      cases hs : s.sufficient x a r with
      | true => exact entryTrials_sufficient h hs _
      | false =>
          rw [entryTrials_cut h hs, hsame a (a / s.cutback)]
          exact ih (hsame a (a / s.cutback) ▸ h)

end Entry

/-! ## The search of a batch -/

section Batch

variable {batch : Shape} {n m : Nat} {x : Nat → EntryStart α n}

def startOf (batch : Shape) (m : Nat) (x : Nat → EntryStart α n) : Start α where
  batch := batch
  width := n
  iterates := (List.range m).map fun k => (x k).iterate.toList
  directions := (List.range m).map fun k => (x k).direction.toList
  squared := (List.range m).map fun k => (x k).squared
  slopes := (List.range m).map fun k => (x k).slope

theorem trialValues_startOf [Add α] [Mul α] (a : Nat → α) :
    (startOf batch m x).trialValues ((List.range m).map a) =
      (List.range m).flatMap fun k => ((x k).trial (a k)).toList := by
  unfold Start.trialValues startOf
  dsimp only
  rw [List.zip_map', List.zip_map', List.flatMap_map]
  apply List.flatMap_congr
  intro k _
  simp [EntryStart.trial, Vector.toList_zipWith]

theorem trial_startOf [Zero α] [Add α] [Mul α] (hm : m = if n = 0 then 0 else batch.numel)
    (a : Nat → α) :
    ∃ t, Tensor.ofValues batch [] [n]
        ((startOf batch m x).trialValues ((List.range m).map a)).toArray = .ok t ∧
      Collects batch (fun b => .ok ((x (batch.offset b)).trial (a (batch.offset b)))) t := by
  rw [trialValues_startOf]
  by_cases h0 : n = 0
  · subst h0
    rw [if_pos rfl] at hm
    subst hm
    have hsize : (#[] : Array α).size = (batch ++ [] ++ [0]).numel := by
      rw [Shape.numel_append]
      simp
    refine ⟨_, dif_pos hsize, rfl, ⟨rfl, rfl⟩, fun _ => congrArg Except.ok ?_⟩
    exact Vector.ext fun i hi => absurd hi (Nat.not_lt_zero i)
  · rw [if_neg h0] at hm
    subst hm
    rw [Tensor.flatMap_rows]
    have hrows : ((List.range batch.numel).map fun k => (x k).trial (a k)).length =
        batch.numel := by simp
    obtain ⟨t, ht⟩ := Tensor.ofValues_rows_isOk hrows
    obtain ⟨htb, htp, hrun⟩ := Tensor.ofValues_rows ht
    refine ⟨t, ht, htb, htp, fun {b} hb => congrArg Except.ok ?_⟩
    rw [Tensor.runAt_of_inBounds t n (htb ▸ hb), htb]
    symm
    apply hrun
    rw [List.getElem?_map, List.getElem?_range (Shape.offset_lt hb)]
    rfl

variable [Zero α] [One α] [Add α] [Sub α] [Mul α] [LE α] [DecidableLE α]

theorem verdicts_startOf (s : LineSearch α) (hm : m = if n = 0 then 0 else batch.numel)
    (a : Nat → α) {r : Tensor α} (hrb : r.batch = batch) (hr : r.Packed n) :
    s.verdicts (startOf batch m x) ((List.range m).map a) r =
      (List.range m).map fun k => s.sufficient (x k) (a k) (r.vectorRun n k) := by
  unfold verdicts startOf
  dsimp only
  rw [hr.chunks_eq, hrb, ← hm, List.take_of_length_le (by simp), List.zip_map', List.zip_map',
    List.zip_map', List.map_map]
  rfl

/-- One trial evaluates every entry at its own trial point and judges it by its own residual. -/
theorem attempt_entries {f : Index → EntryFunctions α n} (p : BatchProblem σ batch n f)
    (s : LineSearch α) (hm : m = if n = 0 then 0 else batch.numel) (a : Nat → α) {st : σ}
    {w : Option (Tensor α)} (hw : p.memoryless.holds st w)
    {next : Tensor α → List Bool → Update (SolveError α) σ (Tensor α × List α)}
    {Q : Tensor α × List α → σ → Prop} {E : SolveError α → Prop}
    (hfails : ∀ e, EntryFails batch (fun b =>
      (f b).residual ((x (batch.offset b)).trial (a (batch.offset b)))) e → E e)
    (hjudged : ∀ (t : Tensor α) (r : Nat → Vector α n) (st' : σ) (w' : Option (Tensor α)),
      p.memoryless.holds st' w' →
      Collects batch (fun b => .ok ((x (batch.offset b)).trial (a (batch.offset b)))) t →
      (∀ {b : Index}, Shape.InBounds batch b →
        (f b).residual ((x (batch.offset b)).trial (a (batch.offset b))) =
          .ok (r (batch.offset b))) →
      ((∀ k < m, s.sufficient (x k) (a k) (r k) = true) → Q (t, (List.range m).map a) st') ∧
        (next t ((List.range m).map fun k => s.sufficient (x k) (a k) (r k))).Ensures st' Q E) :
    (s.attempt (startOf batch m x) p.sys ((List.range m).map a) next).Ensures st Q E := by
  obtain ⟨t, ht, hc⟩ := trial_startOf (x := x) hm a
  have hrun : ∀ {b : Index}, Shape.InBounds batch b →
      t.runAt n b = (x (batch.offset b)).trial (a (batch.offset b)) :=
    fun hb => (Except.ok.inj (hc.run_eq hb)).symm
  unfold attempt
  show Update.Ensures (liftM (Tensor.ofValues batch [] [n] _) >>= _) st Q E
  rw [ht]
  refine (p.sets hw hc.packed (.inl hc.batch_eq)).bind fun _ st₁ h₁ => ?_
  refine ((p.evaluates h₁ hc.packed (.inl hc.batch_eq)).mono (fun _ _ h => h)
    fun e he => hfails e (he.mono fun b e' hb hr => hrun hb ▸ hr)).bind ?_
  rintro r st₂ ⟨h₂, hr⟩
  obtain ⟨r', hr'⟩ := Tensor.expandBatch_of_batch_eq hr.batch_eq
  obtain ⟨-, hrb, hrp, hrrun⟩ := hr.packed.expandBatch hr'
  show Update.Ensures (liftM (r.expandBatch batch) >>= _) st₂ Q E
  rw [hr']
  obtain ⟨hdone, hnext⟩ := hjudged t (r'.vectorRun n) st₂ (some t) h₂ hc fun {b} hb => by
    rw [← hrun hb, hr.run_eq hb, ← hrrun (Shape.expandsTo_refl batch) hb,
      Tensor.runAt_of_inBounds r' n (hrb ▸ hb), hrb]
  show Update.Ensures (if (s.verdicts (startOf batch m x) _ r').all id then _ else _) st₂ Q E
  rw [verdicts_startOf s hm a hrb hrp]
  split
  · next hall =>
    refine Update.ensures_pure (hdone fun k hk => ?_)
    rw [List.all_map, List.all_eq_true] at hall
    exact hall k (List.mem_range.2 hk)
  · exact hnext

omit [Zero α] [One α] [Add α] [Sub α] [Mul α] [LE α] [DecidableLE α] in
theorem cut_range [Div α] (s : LineSearch α) (a : Nat → α) (v : Nat → Bool) :
    s.cut ((List.range m).map a) ((List.range m).map v) =
      (List.range m).map fun k => if v k then a k else a k / s.cutback := by
  unfold cut
  apply List.ext_getElem
  · simp
  · intro k hk hk'
    have hlt : k < m := by simpa using hk'
    simp [hlt]

private theorem trials_done [Div α] {f : Index → EntryFunctions α n} {s : LineSearch α}
    (hm : m = if n = 0 then 0 else batch.numel) {retries : Nat} {a : Nat → α} {t : Tensor α}
    {r : Nat → Vector α n}
    (hc : Collects batch (fun b => .ok ((x (batch.offset b)).trial (a (batch.offset b)))) t)
    (hr : ∀ {b : Index}, Shape.InBounds batch b →
      (f b).residual ((x (batch.offset b)).trial (a (batch.offset b))) = .ok (r (batch.offset b)))
    (hall : ∀ k < m, s.sufficient (x k) (a k) (r k) = true) :
    Collects batch (fun b =>
      s.entryTrials (f b) (x (batch.offset b)) retries (a (batch.offset b))) t := by
  refine ⟨hc.batch_eq, hc.packed, fun {b} hb => ?_⟩
  rw [← hc.run_eq hb]
  by_cases h0 : n = 0
  · subst h0
    exact entryTrials_of_width_zero (hr hb) retries
  · rw [if_neg h0] at hm
    exact entryTrials_sufficient (hr hb) (hall _ (hm ▸ Shape.offset_lt hb)) retries

/-- The search of a batch ends with what every entry would have found by itself. -/
theorem trials_entries [Div α] {f : Index → EntryFunctions α n} (p : BatchProblem σ batch n f)
    (s : LineSearch α) (hm : m = if n = 0 then 0 else batch.numel) (retries : Nat) (a : Nat → α)
    {st : σ} {w : Option (Tensor α)} (hw : p.memoryless.holds st w) :
    (s.trials p.sys (startOf batch m x) retries ((List.range m).map a)).Ensures st
      (fun q st' => Collects batch (fun b =>
          s.entryTrials (f b) (x (batch.offset b)) retries (a (batch.offset b))) q.1 ∧
        ∃ w, p.memoryless.holds st' w)
      (EntryFails batch fun b =>
        s.entryTrials (f b) (x (batch.offset b)) retries (a (batch.offset b))) := by
  induction retries generalizing a st w with
  | zero =>
      rw [trials_zero]
      refine attempt_entries p s hm a hw (fun e he => he.mono fun b e' _ hr => ?_)
        fun t r st' w' hst' hc hr => ⟨fun hall => ⟨trials_done hm hc hr hall, w', hst'⟩, ?_⟩
      · exact entryTrials_error hr 0
      · refine Update.ensures_pure ⟨⟨hc.batch_eq, hc.packed, fun {b} hb => ?_⟩, w', hst'⟩
        rw [← hc.run_eq hb]
        exact entryTrials_last (hr hb)
  | succ retries ih =>
      rw [trials_succ]
      refine attempt_entries p s hm a hw (fun e he => he.mono fun b e' _ hr => ?_)
        fun t r st' w' hst' hc hr => ⟨fun hall => ⟨trials_done hm hc hr hall, w', hst'⟩, ?_⟩
      · exact entryTrials_error hr _
      · rw [cut_range]
        refine (ih _ hst').mono (fun q st'' ⟨hq, hst''⟩ => ?_) fun e he => ?_
        · refine ⟨⟨hq.batch_eq, hq.packed, fun {b} hb => ?_⟩, hst''⟩
          rw [entryTrials_judged (hr hb)]
          exact hq.run_eq hb
        · refine he.mono fun b e' hb ht => ?_
          rw [entryTrials_judged (hr hb)]
          exact ht

end Batch

section Step

variable [Zero α] [Add α] [Mul α] {batch : Shape} {n : Nat}

def EntryStart.of (u r d : Vector α n) : EntryStart α n :=
  ⟨u, d, Linear.dot r.toList r.toList, Linear.dot r.toList d.toList⟩

private theorem start_eq_startOf {u r d : Tensor α} (hub : u.batch = batch) (hu : u.Packed n)
    (hrb : r.batch = batch) (hr : r.Packed n) (hdb : d.batch = batch) (hd : d.Packed n) :
    (⟨batch, n, chunks n u.toList, chunks n d.toList,
      (chunks n r.toList).map fun r => Linear.dot r r,
      List.zipWith Linear.dot (chunks n r.toList) (chunks n d.toList)⟩ : Start α) =
      startOf batch (if n = 0 then 0 else batch.numel) fun k =>
        .of (u.vectorRun n k) (r.vectorRun n k) (d.vectorRun n k) := by
  rw [hu.chunks_eq, hr.chunks_eq, hd.chunks_eq, hub, hrb, hdb, List.map_map, List.zipWith_map,
    List.zipWith_self]
  rfl

variable [One α] [Sub α] [Div α] [LE α] [DecidableLE α]

theorem search_eq_trials (s : LineSearch α) (sys : NonlinearSystem σ α) {u r d : Tensor α}
    (hbatch : Shape.broadcastAll [u.batch, r.batch, d.batch] = .ok batch) (hu : u.Packed n)
    (hr : r.Packed n) (hd : d.Packed n) :
    ∃ x : Nat → EntryStart α n,
      (∀ {b : Index}, Shape.InBounds batch b →
        x (batch.offset b) = .of (u.runAt n b) (r.runAt n b) (d.runAt n b)) ∧
      s.search sys u r d = s.trials sys
        (startOf batch (if n = 0 then 0 else batch.numel) x) (s.maxTrials - 1)
        ((List.range (if n = 0 then 0 else batch.numel)).map fun _ => 1) := by
  have hall := Shape.broadcastAll_expandsTo hbatch
  have hexpand : ∀ {t : Tensor α}, t.batch.expandsTo batch = true → t.Packed n → ∃ t' : Tensor α,
      t.expandBatch batch = .ok t' ∧ t'.batch = batch ∧ t'.Packed n ∧ ∀ {b : Index},
        Shape.InBounds batch b → t'.vectorRun n (batch.offset b) = t.runAt n b := by
    intro t htb ht
    obtain ⟨t', ht'⟩ := Tensor.expandBatch_isOk htb
    obtain ⟨-, htb', htp', hrun⟩ := ht.expandBatch ht'
    refine ⟨t', ht', htb', htp', fun {b} hb => ?_⟩
    rw [← hrun (Shape.expandsTo_refl batch) hb, Tensor.runAt_of_inBounds t' n (htb' ▸ hb), htb']
  obtain ⟨u', hu', hub', hup', hurun⟩ := hexpand (hall u.batch (by simp)) hu
  obtain ⟨d', hd', hdb', hdp', hdrun⟩ := hexpand (hall d.batch (by simp)) hd
  obtain ⟨r', hr', hrb', hrp', hrrun⟩ := hexpand (hall r.batch (by simp)) hr
  have hentries : List.replicate (if n = 0 then 0 else u'.toList.length / n) (1 : α) =
      (List.range (if n = 0 then 0 else batch.numel)).map fun _ => 1 := by
    by_cases h0 : n = 0
    · rw [if_pos h0, if_pos h0]
      rfl
    · have hsize : u'.toList.length = batch.numel * n := by
        rw [← hub']
        exact hup'.size_data
      rw [if_neg h0, if_neg h0, hsize, Nat.mul_div_cancel _ (Nat.pos_of_ne_zero h0)]
      simp
  refine ⟨fun k => .of (u'.vectorRun n k) (r'.vectorRun n k) (d'.vectorRun n k),
    fun {b} hb => ?_, ?_⟩
  · dsimp only
    rw [hurun hb, hrrun hb, hdrun hb]
  rw [← start_eq_startOf hub' hup' hrb' hrp' hdb' hdp', ← hentries]
  unfold search
  rw [hbatch]
  show (liftM (u.expandBatch batch) >>= _ : Update (SolveError α) σ _) = _
  rw [hu']
  show (liftM (d.expandBatch batch) >>= _ : Update (SolveError α) σ _) = _
  rw [hd']
  show (liftM (r.expandBatch batch) >>= _ : Update (SolveError α) σ _) = _
  rw [hr']
  show s.trials sys ⟨batch, u'.baseNumel, chunks u'.baseNumel u'.toList, _,
    (chunks u'.baseNumel r'.toList).map _, _⟩ _ (List.replicate (if u'.baseNumel = 0 then _ else
      _ / u'.baseNumel) 1) = _
  rw [hup'.baseNumel_eq]

theorem search_entries {f : Index → EntryFunctions α n} (p : BatchProblem σ batch n f)
    (s : LineSearch α) {u r d : Tensor α} {st : σ} {w : Option (Tensor α)}
    (hub : u.batch = batch) (hu : u.Packed n) (hrb : r.batch = batch) (hr : r.Packed n)
    (hdb : d.batch = batch) (hd : d.Packed n) (hw : p.memoryless.holds st w) :
    (s.search p.sys u r d).Ensures st
      (fun q st' => Collects batch (fun b => s.entryTrials (f b)
          (.of (u.runAt n b) (r.runAt n b) (d.runAt n b)) (s.maxTrials - 1) 1) q.1 ∧
        ∃ w, p.memoryless.holds st' w)
      (EntryFails batch fun b => s.entryTrials (f b)
        (.of (u.runAt n b) (r.runAt n b) (d.runAt n b)) (s.maxTrials - 1) 1) := by
  have hbatch : Shape.broadcastAll [u.batch, r.batch, d.batch] = .ok batch := by
    rw [hub, hrb, hdb]
    exact Shape.broadcastAll_of_mem (by simp) fun c hc => by
      obtain rfl : c = batch := by simpa using hc
      exact Shape.expandsTo_refl c
  obtain ⟨x, hx, hsearch⟩ := s.search_eq_trials p.sys hbatch hu hr hd
  rw [hsearch]
  refine (trials_entries p s rfl (s.maxTrials - 1) (fun _ => 1) hw).mono
    (fun q st' ⟨hq, hst'⟩ => ⟨⟨hq.batch_eq, hq.packed, fun {b} hb => ?_⟩, hst'⟩)
    fun e he => he.mono fun b e' hb ht => ?_
  · rw [← hx hb]
    exact hq.run_eq hb
  · rw [← hx hb]
    exact ht

variable [Neg α] [LT α] [DecidableLT α] [OfScientific α]

def entryNext (s : LineSearch α) (f : EntryFunctions α n) : EntryStep α n := fun u r j => do
  let d ← Lu.entryStep r j
  s.entryTrials f (.of u r d) (s.maxTrials - 1) 1

theorem stepsBy {f : Index → EntryFunctions α n} (p : BatchProblem σ batch n f)
    {s : LineSearch α} (hs : s.linear = .dense) :
    p.StepsBy s.iteration fun b => s.entryNext (f b) := by
  intro u r j st w hub hu hrb hr hjb hj hw
  obtain ⟨hok, herr⟩ := LinearSolver.newtonStep_entries hrb hr hjb hj
  have hnext : ∀ b, s.entryNext (f b) (u.runAt n b) (r.runAt n b) (j.squareAt n b) =
      Lu.entryStep (r.runAt n b) (j.squareAt n b) >>= fun d =>
        s.entryTrials (f b) (.of (u.runAt n b) (r.runAt n b) d) (s.maxTrials - 1) 1 :=
    fun b => rfl
  unfold LineSearch.iteration
  dsimp only
  rw [hs]
  refine (Update.ensures_lift (Q := fun d (st' : σ × Unit) => st' = (st, ()) ∧
    Collects batch (fun b => Lu.entryStep (r.runAt n b) (j.squareAt n b)) d)
    (fun d hd => ⟨rfl, hok d hd⟩) fun e he => ?_).bind ?_
  · refine (herr e he).mono fun b e' hb hf => ?_
    rw [hnext, hf]
    rfl
  rintro d _ ⟨rfl, hd⟩
  have hstep : ∀ {b : Index}, Shape.InBounds batch b →
      s.entryNext (f b) (u.runAt n b) (r.runAt n b) (j.squareAt n b) =
        s.entryTrials (f b) (.of (u.runAt n b) (r.runAt n b) (d.runAt n b)) (s.maxTrials - 1)
          1 := by
    intro b hb
    rw [hnext, hd.run_eq hb]
    rfl
  refine ((search_entries p s hub hu hrb hr hd.batch_eq hd.packed hw).mono (fun _ _ h => h)
    fun e he => he.mono fun b e' hb ht => ?_).onFirst.bind ?_
  · rw [hstep hb]
    exact ht
  · rintro ⟨u', _⟩ ⟨st', _⟩ ⟨⟨hu', hst'⟩, rfl⟩
    refine Update.ensures_pure ⟨⟨hu'.batch_eq, hu'.packed, fun {b} hb => ?_⟩, hst'⟩
    rw [hstep hb]
    exact hu'.run_eq hb

end Step

end LineSearch

end TieredCalculus
